import Bbr.Highlight.Bundle
import Bbr.Lib.Frames
import Bbr.Lib.Ranks
import Mathlib.Algebra.Order.Ring.Nat

/-!
# What a digest stands for

The selection loop lists the files of a bundle by their paths, and every file delimits itself in the
text that is hashed. So the text of a bundle with distinct paths tells its files, and only them.
-/
namespace Bbr.Highlight

open Bbr.Lib List
open Bbr.Diff (usizeLimit)

variable {files files' : List File} {file : File}

/-- A path as the numbers of its bytes, which a list of numbers is ordered like. -/
def pathKey (file : File) : List Nat := file.path.1.map UInt8.toNat

theorem pathKey_injective {f g : File} (h : pathKey f = pathKey g) : f.path = g.path := by
  refine Subtype.ext (map_injective_iff.mpr (fun x y hxy => ?_) h)
  exact UInt8.toNat_inj.mp hxy

/-- No two files of a bundle have one path. -/
def DistinctPaths (files : List File) : Prop := (files.map File.path).Nodup

theorem DistinctPaths.distinct (h : DistinctPaths files) : Distinct pathKey files := by
  refine List.Nodup.map_on (fun f hf g hg hkey => ?_) (List.Nodup.of_map File.path h)
  exact inj_on_of_nodup_map h hf hg (pathKey_injective hkey)

variable {Digest : Type} {sha : Sha256 Digest}

end Bbr.Highlight

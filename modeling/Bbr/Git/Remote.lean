import Bbr.Diff.Path

/-!
# Remotes

A remote URL names a workspace and a repository on Bitbucket. The `insteadOf` rules of Git rewrite the
beginning of a URL before it is used.
-/
namespace Bbr.Git

open Bbr.Diff (ascii)

def slash : UInt8 := 47
def colon : UInt8 := 58
def atSign : UInt8 := 64
def question : UInt8 := 63
def hash : UInt8 := 35

def indexOfScalar (s : Bytes) (byte : UInt8) : Option Nat := s.findIdx? (· = byte)

def lastIndexOfScalar (s : Bytes) (byte : UInt8) : Option Nat :=
  (indexOfScalar s.reverse byte).map (fun i => s.length - 1 - i)

def indexOf (s needle : Bytes) : Option Nat :=
  (List.range (s.length + 1)).find? (fun i => needle.isPrefixOf (s.drop i))

def indexOfAny (s bytes : Bytes) : Option Nat := s.findIdx? (fun byte => bytes.contains byte)

def endsWith (s suffix : Bytes) : Bool := suffix.isSuffixOf s

def toLower (byte : UInt8) : UInt8 := if 65 ≤ byte ∧ byte ≤ 90 then byte + 32 else byte

/-- Without the bytes behind an index, if there is one. -/
def upTo (s : Bytes) (index : Option Nat) : Bytes :=
  match index with
  | none => s
  | some i => s.take i

/-- Without the bytes up to an index, if there is one. -/
def behind (s : Bytes) (index : Option Nat) : Bytes :=
  match index with
  | none => s
  | some i => s.drop (i + 1)

structure Remote where
  workspace : Bytes
  repoSlug : Bytes
  deriving DecidableEq, Repr

inductive ParseError where
  | notBitbucket
  | malformedUrl
  deriving DecidableEq, Repr

structure Rewrite where
  «alias» : Bytes
  base : Bytes
  deriving DecidableEq, Repr

/-- Without the slashes at the end, but not shorter than `least`. -/
def trimSlashes (least : Nat) (path : Bytes) : Bytes := (go path.reverse).reverse
where
  go : Bytes → Bytes
    | [] => []
    | byte :: rest => if least ≤ rest.length ∧ byte = slash then go rest else byte :: rest

def withoutGit (path : Bytes) : Bytes :=
  if endsWith path (ascii ".git") then path.take (path.length - 4) else path

def normalizeFileRemote (input : Bytes) : Except ParseError Bytes :=
  if !(ascii "/").isPrefixOf input then .error .malformedUrl
  else if withoutGit (trimSlashes 1 input) = [] then .error .malformedUrl
  else .ok (ascii "file:" ++ withoutGit (trimSlashes 1 input))

/-- The host and the path of a URL or of `[user@]host:path`. -/
def hostAndPath (effective : Bytes) : Except ParseError (Bytes × Bytes) :=
  match indexOf effective (ascii "://") with
  | some scheme =>
    let authorityPath := effective.drop (scheme + 3)
    match indexOfScalar authorityPath slash with
    | none => .error .malformedUrl
    | some i =>
      let authority := authorityPath.take i
      .ok (behind authority (lastIndexOfScalar authority atSign), authorityPath.drop (i + 1))
  | none => match indexOfScalar effective colon with
    | none => .error .malformedUrl
    | some i =>
      let authority := effective.take i
      .ok (behind authority (lastIndexOfScalar authority atSign), effective.drop (i + 1))

def normalizeEffective (effective : Bytes) : Except ParseError Bytes :=
  if (ascii "file://").isPrefixOf effective then normalizeFileRemote (effective.drop 7)
  else if (ascii "/").isPrefixOf effective then normalizeFileRemote effective
  else do
    let (hostPart, pathPart) ← hostAndPath effective
    if hostPart = [] ∨ pathPart = [] then throw .malformedUrl
    let pathPart := upTo pathPart (indexOfAny pathPart (ascii "?#"))
    let pathPart := (withoutGit (trimSlashes 0 pathPart)).dropWhile (· = slash)
    if pathPart = [] then throw .malformedUrl
    return hostPart.map toLower ++ slash :: pathPart

/-- The rule that `normalize` takes: the first of the longest. -/
def bestRewrite (url : Bytes) (rewrites : List Rewrite) : Option Rewrite :=
  rewrites.foldl (fun best rewrite =>
    if !rewrite.alias.isPrefixOf url then best
    else match best with
      | none => some rewrite
      | some other => if other.alias.length < rewrite.alias.length then some rewrite else best) none

/-- Memory is taken to be there. -/
def normalize (url : Bytes) (rewrites : List Rewrite) : Except ParseError Bytes :=
  match bestRewrite url rewrites with
  | none => normalizeEffective url
  | some rewrite => normalizeEffective (rewrite.base ++ url.drop rewrite.alias.length)

def host : Bytes := ascii "bitbucket.org"

def hostMatches (h : Bytes) : Bool := decide (h = host)

def hostIsBitbucket (s : Bytes) : Bool :=
  match indexOf s (ascii "://") with
  | none =>
    let afterUser := behind s (indexOfScalar s atSign)
    hostMatches (upTo afterUser (indexOfScalar afterUser colon))
  | some scheme =>
    let afterScheme := s.drop (scheme + 3)
    let afterUser := behind afterScheme (indexOfScalar afterScheme atSign)
    hostMatches (upTo afterUser (indexOfAny afterUser (ascii "/:")))

/-- Without `?query`, `#frag`, one slash at the end and then `.git`. -/
def trimTail (url : Bytes) : Bytes :=
  let s := upTo url (indexOfScalar url question)
  let s := upTo s (indexOfScalar s hash)
  let s := if endsWith s (ascii "/") then s.take (s.length - 1) else s
  withoutGit s

def workspaceStart (before : Bytes) : Nat :=
  match lastIndexOfScalar before slash, lastIndexOfScalar before colon with
  | none, none => 0
  | none, some b => b + 1
  | some a, none => a + 1
  | some a, some b => max a b + 1

def extractTail (url : Bytes) : Except ParseError Remote :=
  let s := trimTail url
  match lastIndexOfScalar s slash with
  | none => .error .malformedUrl
  | some lastSlash =>
    let repoSlug := s.drop (lastSlash + 1)
    let before := s.take lastSlash
    let workspace := before.drop (workspaceStart before)
    if repoSlug = [] then .error .malformedUrl
    else if workspace = [] then .error .malformedUrl
    else .ok { workspace := workspace, repoSlug := repoSlug }

/-- The base of the rule that `parse` takes, or the URL, behind the length of the alias. -/
def hostSource (url : Bytes) (rewrites : List Rewrite) : Nat × Bytes :=
  rewrites.foldl (fun best r =>
    if best.1 < r.alias.length ∧ r.alias.isPrefixOf url then (r.alias.length, r.base) else best)
    (0, url)

def parse (url : Bytes) (rewrites : List Rewrite) : Except ParseError Remote :=
  if !hostIsBitbucket (hostSource url rewrites).2 then .error .notBitbucket
  else extractTail url

example : parse (ascii "bb:c24/pr-webapp.git")
    [⟨ascii "bb:", ascii "git@example.com:"⟩, ⟨ascii "bb:c24/", ascii "git@bitbucket.org:check24/"⟩] =
      .ok ⟨ascii "c24", ascii "pr-webapp"⟩ := rfl

end Bbr.Git

import Bbr.Lib.OutlineLaws
import Bbr.Tui.FileTree

/-!
# What the File Tree shows

The directories of a path are known from any path inside them, so the File Tree is an outline of
well-placed Files. Each File that no collapsed directory hides has one row.
-/
namespace Bbr.Tui.FileTree

open Bbr.Diff Bbr.Lib List Forest

/-- A directory ends at the place. -/
def cuts (path : Bytes) (i : Nat) : Bool :=
  decide (path[i]? = some slash) && decide (0 < i) && decide (path[i - 1]? ≠ some slash)

variable {path : Bytes} {i : Nat}

theorem directoriesFrom_eq {segmentStart : Nat} {text : Bytes} (htext : path.drop i = text)
    (hle : segmentStart ≤ i) (hstart : segmentStart < i ↔ 0 < i ∧ path[i - 1]? ≠ some slash) :
    directoriesFrom path i segmentStart text =
      ((range' i text.length).filter (cuts path)).map path.take := by
  induction text generalizing i segmentStart with
  | nil => rfl
  | cons b rest ih =>
    have hb : path[i]? = some b := by rw [← head?_drop, htext]; rfl
    have hrest : path.drop (i + 1) = rest := by rw [← drop_drop, htext]; rfl
    rw [directoriesFrom, length_cons, range'_succ]
    split
    · next heq =>
      subst heq
      rw [ih hrest (Nat.le_refl _) (by simp [hb])]
      by_cases hlt : segmentStart < i
      · rw [if_pos hlt, filter_cons_of_pos (by simp [cuts, hb, hstart.mp hlt])]
        rfl
      have hcuts : cuts path i = false := by
        by_contra hne
        simp only [cuts, Bool.not_eq_false, Bool.and_eq_true, decide_eq_true_eq] at hne
        exact hlt (hstart.mpr ⟨hne.1.2, hne.2⟩)
      rw [if_neg hlt, filter_cons_of_neg (by simp [hcuts])]
      rfl
    · next hne =>
      rw [ih hrest (by omega) (by simp [hb, hne]; omega), filter_cons_of_neg (by simp [cuts, hb, hne])]

theorem directoryPaths_eq (path : Bytes) :
    directoryPaths path = ((range path.length).filter (cuts path)).map path.take := by
  rw [directoryPaths, directoriesFrom_eq drop_zero (Nat.le_refl 0) (by simp), range_eq_range']

theorem take_filter_range {p : Nat → Bool} {n m : Nat} (h : ((range n).filter p)[m]? = some i) :
    ((range n).filter p).take m = (range i).filter p := by
  have hmem := mem_filter.mp (mem_of_getElem? h)
  have hlt := mem_range.mp hmem.1
  have hsplit : (range n).filter p =
      (range i).filter p ++ i :: (range' (i + 1) (n - i - 1)).filter p := by
    have hn : n = i + (n - i - 1 + 1) := by omega
    rw [range_eq_range', hn, ← range'_append_1, filter_append, Nat.zero_add,
      range'_succ, filter_cons_of_pos hmem.2, ← range_eq_range']
    simp
  have hnodup : ((range n).filter p).Nodup := nodup_range.filter p
  have hm : m = ((range i).filter p).length := by
    refine (List.getElem?_inj (List.getElem?_eq_some_iff.mp h).1 hnodup).mp (h.trans ?_)
    rw [hsplit, List.getElem?_append_right (Nat.le_refl _), Nat.sub_self]
    rfl
  rw [hsplit, hm, List.take_left]

theorem cuts_take {j : Nat} (h : j < i) : cuts (path.take i) j = cuts path j := by
  rw [cuts, cuts, getElem?_take_of_lt h, getElem?_take_of_lt (by omega)]

variable {directory : Bytes}

theorem directoryPaths_take {m : Nat} (h : (directoryPaths path)[m]? = some directory) :
    (directoryPaths path).take m = directoryPaths directory := by
  rw [directoryPaths_eq] at h
  rw [getElem?_map, Option.map_eq_some_iff] at h
  obtain ⟨i, hi, rfl⟩ := h
  have hlt := mem_range.mp (mem_filter.mp (mem_of_getElem? hi)).1
  rw [directoryPaths_eq, directoryPaths_eq, ← map_take, take_filter_range hi,
    length_take, Nat.min_eq_left (Nat.le_of_lt hlt)]
  have hfilter : (range i).filter (cuts (path.take i)) = (range i).filter (cuts path) :=
    filter_congr (fun j hj => cuts_take (mem_range.mp hj))
  rw [hfilter]
  refine map_congr_left (fun j hj => ?_)
  have hj := mem_range.mp (mem_filter.mp hj).1
  rw [take_take, Nat.min_eq_left (Nat.le_of_lt hj)]

/-- A path that a slash may follow. -/
def IsDirectory (path : Bytes) : Prop := 0 < path.length ∧ path[path.length - 1]? ≠ some slash

theorem pathDescends_iff : pathDescends path directory = true ↔
    path.take directory.length = directory ∧ path[directory.length]? = some slash := by
  simp only [pathDescends, Bool.and_eq_true, decide_eq_true_eq, isPrefixOf_iff_prefix,
    beq_iff_eq, prefix_iff_eq_take]
  constructor
  · rintro ⟨⟨-, htake⟩, hslash⟩
    exact ⟨htake.symm, hslash⟩
  · rintro ⟨htake, hslash⟩
    exact ⟨⟨(List.getElem?_eq_some_iff.mp hslash).1, htake.symm⟩, hslash⟩

theorem mem_directoryPaths :
    directory ∈ directoryPaths path ↔ IsDirectory directory ∧ pathDescends path directory = true := by
  rw [directoryPaths_eq, pathDescends_iff, mem_map]
  constructor
  · rintro ⟨i, hi, rfl⟩
    obtain ⟨hi, hcuts⟩ := mem_filter.mp hi
    have hlt := mem_range.mp hi
    simp only [cuts, Bool.and_eq_true, decide_eq_true_eq] at hcuts
    obtain ⟨⟨hslash, hpos⟩, hbefore⟩ := hcuts
    rw [IsDirectory, length_take, Nat.min_eq_left (Nat.le_of_lt hlt), getElem?_take_of_lt (by omega)]
    exact ⟨⟨hpos, hbefore⟩, rfl, hslash⟩
  · rintro ⟨⟨hpos, hlast⟩, htake, hslash⟩
    refine ⟨directory.length, mem_filter.mpr ⟨mem_range.mpr ?_, ?_⟩, htake⟩
    · exact (List.getElem?_eq_some_iff.mp hslash).1
    rw [← htake, List.length_take] at hlast
    have hlt := (List.getElem?_eq_some_iff.mp hslash).1
    rw [Nat.min_eq_left (Nat.le_of_lt hlt), List.getElem?_take_of_lt (by omega)] at hlast
    simp [cuts, hslash, hpos, hlast]

section Tree

variable (diff : Diff.Diff)

/-- The directories around a File. -/
def fileKeys (index : Fin diff.files.length) : List Bytes := directoryPaths (filePath diff index)

theorem fileKeys_coherent : Forest.Coherent (fileKeys diff) directoryPaths :=
  fun _ _ _ h => directoryPaths_take h

variable {diff}

theorem foldl_insertFile {forest : Forest Bytes (Fin diff.files.length)}
    (hplaced : Forest.Placed (fileKeys diff) 0 forest) (files : List (Fin diff.files.length)) :
    Forest.Placed (fileKeys diff) 0 (files.foldl (insertFile diff) forest) ∧
      (files.foldl (insertFile diff) forest).items.Perm (forest.items ++ files) := by
  induction files generalizing forest with
  | nil => simpa using hplaced
  | cons index files ih =>
    have hput : Forest.Placed (fileKeys diff) 0 (insertFile diff forest index) :=
      placed_put hplaced rfl (Nat.zero_le _)
    obtain ⟨h, hperm⟩ := ih hput
    refine ⟨h, hperm.trans ?_⟩
    exact ((items_put forest _ index).append_right files).trans perm_middle.symm

theorem inserted_files : Forest.Placed (fileKeys diff) 0
      ((finRange diff.files.length).foldl (insertFile diff) .nil) ∧
    ((finRange diff.files.length).foldl (insertFile diff) .nil).items.Perm
      (finRange diff.files.length) := by
  have hnil : Forest.Placed (fileKeys diff) 0 .nil := trivial
  simpa [items] using foldl_insertFile hnil (finRange diff.files.length)

theorem nodes_placed : Forest.Placed (fileKeys diff) 0 (nodes diff) :=
  placed_sortOnto trivial inserted_files.1 (fun a ha => by cases ha)

theorem nodes_items : (nodes diff).items.Perm (finRange diff.files.length) := by
  refine (items_sortOnto _ _).trans ?_
  simpa [items] using inserted_files.2

theorem nodes_nodup : (nodes diff).items.Nodup := nodes_items.nodup_iff.mpr (nodup_finRange _)

theorem index_lt_size (index : Fin diff.files.length) : index.val < (nodes diff).size := by
  have hlength := (@nodes_items diff).length_eq
  have hle := (nodes diff).items_length_le
  rw [length_finRange] at hlength
  omega

theorem mem_nodes (index : Fin diff.files.length) : index ∈ (nodes diff).items :=
  nodes_items.mem_iff.mpr (mem_finRange index)

end Tree

section Rows

variable (diff : Diff.Diff) (tallies : Fin diff.files.length → FileTally)
  (collapsed : List Bytes) (activeFile : Option (Fin diff.files.length)) (contentWidth : Nat)
  (metrics : CellMetrics)

/-- The row of a directory or a File. -/
def entryOf (row : Forest.Row Bytes (Fin diff.files.length)) : Entry :=
  match row.node with
  | .inl path => directoryEntry diff collapsed activeFile contentWidth metrics path
    (row.parent.map .directory) row.depth
  | .inr index => fileEntry diff tallies activeFile contentWidth metrics index
    (row.parent.map .directory) row.depth

def outlineRows : List (Forest.Row Bytes (Fin diff.files.length)) :=
  Forest.outline (containsPath collapsed) (nodes diff) none 0

theorem emit_eq {fuel : Nat} {forest : Forest Bytes (Fin diff.files.length)} (hfuel : forest.size < fuel)
    (parent : Option Bytes) (depth : Nat) :
    emit diff tallies collapsed activeFile contentWidth metrics fuel forest
        (parent.map .directory) depth =
      (outline (containsPath collapsed) forest parent depth).map
        (entryOf diff tallies collapsed activeFile contentWidth metrics) := by
  induction forest, parent, depth using outline.induct generalizing fuel with
  | case1 parent depth =>
    cases fuel with
    | zero => cases hfuel
    | succ fuel => simp [emit, outline]
  | case2 index rest parent depth ih =>
    rw [size] at hfuel
    cases fuel with
    | zero => cases hfuel
    | succ fuel =>
      rw [emit, outline, map_cons, ih (by omega)]
      rfl
  | case3 path members rest parent depth ihm ih =>
    have hlast := chainEnd_size path members
    rw [size] at hfuel
    cases fuel with
    | zero => cases hfuel
    | succ fuel =>
      have hmembers := @ihm fuel (by omega)
      rw [Option.map_some] at hmembers
      rw [emit, outline_group, map_cons, map_append, ih (by omega), hmembers, Forest.inner]
      split <;> rfl

def builtEntries : List Entry :=
  emit diff tallies collapsed activeFile contentWidth metrics ((nodes diff).size + 1) (nodes diff)
    none 0

theorem builtEntries_eq : builtEntries diff tallies collapsed activeFile contentWidth metrics =
    (outlineRows diff collapsed).map (entryOf diff tallies collapsed activeFile contentWidth metrics) :=
  emit_eq diff tallies collapsed activeFile contentWidth metrics (Nat.lt_succ_self _) none 0

end Rows

/-- The path of a directory or of a File. -/
def entryPath (diff : Diff.Diff) (entry : Entry) : Bytes :=
  match entry.identity with
  | .directory path => path
  | .file index => ((diff.files[index]?).map displayPath).getD []

/-- A collapsed directory has a row above a File. -/
def CollapsedAbove (diff : Diff.Diff) (collapsed : List Bytes) (entries : List Entry)
    (index : Fin diff.files.length) : Prop :=
  ∃ entry ∈ entries, ∃ directory, entry.identity = .directory directory ∧
    containsPath collapsed directory = true ∧ pathDescends (filePath diff index) directory = true

/-- The parent is the innermost directory row around the entry. -/
def ParentInnermost (diff : Diff.Diff) (entries : List Entry) (entry : Entry) : Prop :=
  (entry.parent = none ∧ ∀ other ∈ entries, ∀ directory, other.identity = .directory directory →
    pathDescends (entryPath diff entry) directory = false) ∨
  ∃ other ∈ entries, ∃ directory, other.identity = .directory directory ∧
    entry.parent = some (.directory directory) ∧
    pathDescends (entryPath diff entry) directory = true ∧
    ∀ another ∈ entries, ∀ directory', another.identity = .directory directory' →
      pathDescends (entryPath diff entry) directory' = true →
        directory' = directory ∨ pathDescends directory directory' = true

structure TreeRows (diff : Diff.Diff) (collapsed : List Bytes) (entries : List Entry) :
    Prop where
  flag : ∀ entry ∈ entries, ∀ directory, entry.identity = .directory directory →
    entry.expanded = !containsPath collapsed directory
  shown : ∀ index, ¬CollapsedAbove diff collapsed entries index →
    (entries.map Entry.identity).count (.file index) = 1
  hidden : ∀ index, CollapsedAbove diff collapsed entries index →
    (entries.map Entry.identity).count (.file index) = 0
  unique : (entries.map Entry.identity).Nodup
  depthFirst : ∀ before entry after directory, entries = before ++ entry :: after →
    entry.identity = .directory directory →
      (∀ other ∈ before, pathDescends (entryPath diff other) directory = false) ∧
      ∃ inside outside, after = inside ++ outside ∧
        (∀ other ∈ inside, pathDescends (entryPath diff other) directory = true) ∧
        ∀ other ∈ outside, pathDescends (entryPath diff other) directory = false
  parent : ∀ entry ∈ entries, ParentInnermost diff entries entry
  compact : ∀ entry ∈ entries, ∀ directory, entry.identity = .directory directory →
    ∀ child ∈ entries, child.parent = some (.directory directory) →
      (∀ other ∈ entries, other.parent = some (.directory directory) → other = child) →
        ∃ index, child.identity = .file index

section Shows

variable {diff : Diff.Diff} {collapsed : List Bytes}

def nodeIdentity : Bytes ⊕ Fin diff.files.length → Identity
  | .inl path => .directory path
  | .inr index => .file index

theorem nodeIdentity_inj {a b : Bytes ⊕ Fin diff.files.length}
    (h : nodeIdentity a = nodeIdentity b) : a = b := by
  cases a with
  | inl path =>
    cases b with
    | inl other => exact congrArg Sum.inl (Identity.directory.inj h)
    | inr index => cases h
  | inr index =>
    cases b with
    | inl other => cases h
    | inr other => exact congrArg Sum.inr (Fin.ext (Identity.file.inj h))

/-- Entries that show the rows of the outline. -/
structure Shows (diff : Diff.Diff) (collapsed : List Bytes)
    (view : Forest.Row Bytes (Fin diff.files.length) → Entry) : Prop where
  identity : ∀ row, (view row).identity = nodeIdentity row.node
  parent : ∀ row, (view row).parent = row.parent.map .directory
  flag : ∀ row path, row.node = .inl path → (view row).expanded = !containsPath collapsed path

theorem entryOf_shows (tallies : Fin diff.files.length → FileTally) (collapsed : List Bytes)
    (activeFile : Option (Fin diff.files.length)) (contentWidth : Nat) (metrics : CellMetrics) :
    Shows diff collapsed (entryOf diff tallies collapsed activeFile contentWidth metrics) := by
  refine ⟨fun row => ?_, fun row => ?_, fun row path hnode => ?_⟩
  · obtain ⟨parent, depth, node⟩ := row
    cases node <;> rfl
  · obtain ⟨parent, depth, node⟩ := row
    cases node <;> rfl
  · obtain ⟨parent, depth, node⟩ := row
    cases hnode
    rfl

variable {view : Forest.Row Bytes (Fin diff.files.length) → Entry}

namespace Shows

variable (h : Shows diff collapsed view) {row : Forest.Row Bytes (Fin diff.files.length)}

include h

theorem directory_iff {path : Bytes} :
    (view row).identity = .directory path ↔ row.node = .inl path := by
  rw [h.identity]
  exact ⟨fun heq => nodeIdentity_inj heq, fun heq => by rw [heq]; rfl⟩

theorem file_iff {index : Fin diff.files.length} :
    (view row).identity = .file index ↔ row.node = .inr index := by
  rw [h.identity]
  exact ⟨fun heq => nodeIdentity_inj heq, fun heq => by rw [heq]; rfl⟩

theorem above_eq (row : Forest.Row Bytes (Fin diff.files.length)) :
    above (fileKeys diff) directoryPaths row = directoryPaths (entryPath diff (view row)) := by
  have hidentity := h.identity row
  rw [above, entryPath, hidentity]
  cases hnode : row.node with
  | inl path => rfl
  | inr index => simp [nodeIdentity, fileKeys, filePath]

end Shows

variable {row : Forest.Row Bytes (Fin diff.files.length)} {path : Bytes}

theorem isDirectory_row (hrow : row ∈ outlineRows diff collapsed) (hnode : row.node = .inl path) :
    IsDirectory path := by
  have hat := outline_at _ none 0 nodes_placed row hrow
  rw [hnode] at hat
  cases hat with
  | group ha hm hg => exact (mem_directoryPaths.mp (mem_of_getElem? hg)).1

theorem Shows.mem_above_iff (h : Shows diff collapsed view)
    {other : Forest.Row Bytes (Fin diff.files.length)}
    (hother : other ∈ outlineRows diff collapsed) (hnode : other.node = .inl path) :
    path ∈ above (fileKeys diff) directoryPaths row ↔
      pathDescends (entryPath diff (view row)) path = true := by
  rw [h.above_eq, mem_directoryPaths]
  exact and_iff_right (isDirectory_row hother hnode)

/-- The directory whose collapsed row hides a File. -/
def hiddenBy (diff : Diff.Diff) (collapsed : List Bytes) (index : Fin diff.files.length) :
    Option Bytes :=
  Forest.hidingGroup (fileKeys diff) (containsPath collapsed) (nodes diff) index

theorem hiddenBy_spec (collapsed : List Bytes) (index : Fin diff.files.length) :
    Forest.Hiding (fileKeys diff) (containsPath collapsed) (outlineRows diff collapsed) index
      (hiddenBy diff collapsed index) :=
  hidingGroup_spec (fileKeys_coherent diff) nodes_placed nodes_nodup (mem_nodes index)

theorem hiddenBy_closed {index : Fin diff.files.length} {directory : Bytes}
    (h : hiddenBy diff collapsed index = some directory) :
    containsPath collapsed directory = true ∧ directory ∈ fileKeys diff index := by
  simpa using find?_some h

namespace Shows

variable (h : Shows diff collapsed view)
include h

theorem unique : (((outlineRows diff collapsed).map view).map Entry.identity).Nodup := by
  have hnodes : ((outlineRows diff collapsed).map Forest.Row.node).Nodup :=
    outline_nodup (fileKeys_coherent diff) nodes_placed nodes_nodup
  have hmap : ((outlineRows diff collapsed).map view).map Entry.identity =
      ((outlineRows diff collapsed).map Forest.Row.node).map nodeIdentity := by
    rw [map_map, map_map]
    exact map_congr_left (fun row _ => h.identity row)
  rw [hmap]
  exact hnodes.map (fun a b heq => nodeIdentity_inj heq)

theorem file_mem_iff (index : Fin diff.files.length) :
    Identity.file index ∈ ((outlineRows diff collapsed).map view).map Entry.identity ↔
      hiddenBy diff collapsed index = none := by
  rw [← (hiddenBy_spec collapsed index).item, map_map, mem_map]
  constructor
  · rintro ⟨row, hrow, heq⟩
    exact ⟨row, hrow, h.file_iff.mp heq⟩
  · rintro ⟨row, hrow, hnode⟩
    exact ⟨row, hrow, h.file_iff.mpr hnode⟩

variable {directory : Bytes}

/-- A collapsed row above a File is that of the directory which hides it. -/
theorem hiddenBy_iff {index : Fin diff.files.length} : hiddenBy diff collapsed index = some directory ↔
      ∃ entry ∈ (outlineRows diff collapsed).map view, entry.identity = .directory directory ∧
        containsPath collapsed directory = true ∧
        pathDescends (filePath diff index) directory = true := by
  constructor
  · intro hhidden
    obtain ⟨row, hrow, hnode⟩ := (hiddenBy_spec collapsed index).shown directory hhidden
    obtain ⟨hclosed, hkey⟩ := hiddenBy_closed hhidden
    exact ⟨view row, mem_map_of_mem hrow, h.directory_iff.mpr hnode, hclosed,
      (mem_directoryPaths.mp hkey).2⟩
  · rintro ⟨entry, hentry, hidentity, hclosed, hdescends⟩
    obtain ⟨row, hrow, rfl⟩ := mem_map.mp hentry
    have hnode := h.directory_iff.mp hidentity
    exact (hiddenBy_spec collapsed index).only row hrow directory hnode hclosed
      (mem_directoryPaths.mpr ⟨isDirectory_row hrow hnode, hdescends⟩)

theorem collapsedAbove_iff (index : Fin diff.files.length) :
    CollapsedAbove diff collapsed ((outlineRows diff collapsed).map view) index ↔
      hiddenBy diff collapsed index ≠ none := by
  rw [Option.ne_none_iff_exists']
  constructor
  · rintro ⟨entry, hentry, directory, hrest⟩
    exact ⟨directory, h.hiddenBy_iff.mpr ⟨entry, hentry, hrest⟩⟩
  · rintro ⟨directory, hhidden⟩
    obtain ⟨entry, hentry, hrest⟩ := h.hiddenBy_iff.mp hhidden
    exact ⟨entry, hentry, directory, hrest⟩

variable {row : Forest.Row Bytes (Fin diff.files.length)}

theorem descends_false {other : Forest.Row Bytes (Fin diff.files.length)} {path : Bytes}
    (hother : other ∈ outlineRows diff collapsed) (hnode : other.node = .inl path)
    (hnot : path ∉ above (fileKeys diff) directoryPaths row) :
    pathDescends (entryPath diff (view row)) path = false := by
  rw [h.mem_above_iff hother hnode] at hnot
  simpa using hnot

theorem depthFirst {before after : List Entry} {entry : Entry}
    (hentries : (outlineRows diff collapsed).map view = before ++ entry :: after)
    (hidentity : entry.identity = .directory directory) :
    (∀ other ∈ before, pathDescends (entryPath diff other) directory = false) ∧
      ∃ inside outside, after = inside ++ outside ∧
        (∀ other ∈ inside, pathDescends (entryPath diff other) directory = true) ∧
        ∀ other ∈ outside, pathDescends (entryPath diff other) directory = false := by
  obtain ⟨front, back, hrows, rfl, hback⟩ := map_eq_append_iff.mp hentries
  obtain ⟨row, back, rfl, rfl, rfl⟩ := map_eq_cons_iff.mp hback
  have hnode := h.directory_iff.mp hidentity
  have hrow : row ∈ outlineRows diff collapsed := by rw [hrows]; simp
  obtain ⟨hbefore, inside, outside, rfl, hin, hout⟩ :=
    outline_depthFirst (fileKeys_coherent diff) nodes_placed hrows hnode
  refine ⟨fun other hother => ?_, inside.map view, outside.map view, map_append,
    fun other hother => ?_, fun other hother => ?_⟩
  · obtain ⟨other, hmem, rfl⟩ := mem_map.mp hother
    exact h.descends_false hrow hnode (hbefore other hmem)
  · obtain ⟨other, hmem, rfl⟩ := mem_map.mp hother
    exact (h.mem_above_iff hrow hnode).mp (hin other hmem)
  · obtain ⟨other, hmem, rfl⟩ := mem_map.mp hother
    exact h.descends_false hrow hnode (hout other hmem)

theorem parentInnermost (hrow : row ∈ outlineRows diff collapsed) :
    ParentInnermost diff ((outlineRows diff collapsed).map view) (view row) := by
  cases outline_parent (fileKeys_coherent diff) nodes_placed row hrow with
  | inl hnone =>
    refine .inl ⟨by rw [h.parent, hnone.1]; rfl, fun other hother directory hidentity => ?_⟩
    obtain ⟨other, hmem, rfl⟩ := mem_map.mp hother
    have hnode := h.directory_iff.mp hidentity
    exact h.descends_false hmem hnode (hnone.2 other hmem directory hnode)
  | inr hsome =>
    obtain ⟨other, hother, directory, hnode, hparent, habove, hinnermost⟩ := hsome
    refine .inr ⟨view other, mem_map_of_mem hother, directory, h.directory_iff.mpr hnode,
      by rw [h.parent, hparent]; rfl, (h.mem_above_iff hother hnode).mp habove,
      fun another hanother directory' hidentity hdescends => ?_⟩
    obtain ⟨another, hmem, rfl⟩ := mem_map.mp hanother
    have hnode' := h.directory_iff.mp hidentity
    refine (hinnermost another hmem directory' hnode' ((h.mem_above_iff hmem hnode').mpr
      hdescends)).imp_right (fun hup => (mem_directoryPaths.mp hup).2)

theorem compact {child : Forest.Row Bytes (Fin diff.files.length)}
    (hrow : row ∈ outlineRows diff collapsed) (hnode : row.node = .inl directory)
    (hchild : child ∈ outlineRows diff collapsed)
    (hparent : (view child).parent = some (.directory directory))
    (honly : ∀ other ∈ (outlineRows diff collapsed).map view,
      other.parent = some (.directory directory) → other = view child) :
    ∃ index, (view child).identity = .file index := by
  have hparents : ∀ {row : Forest.Row Bytes (Fin diff.files.length)},
      (view row).parent = some (.directory directory) ↔ row.parent = some directory := by
    intro row
    rw [h.parent]
    cases row.parent <;> simp
  have hrows : ∀ other ∈ outlineRows diff collapsed, other.parent = some directory → other = child := by
    intro other hother heq
    have hview := honly (view other) (mem_map_of_mem hother) (hparents.mpr heq)
    have hnodup : ((outlineRows diff collapsed).map Forest.Row.node).Nodup :=
      outline_nodup (fileKeys_coherent diff) nodes_placed nodes_nodup
    refine inj_on_of_nodup_map hnodup hother hchild (nodeIdentity_inj ?_)
    rw [← h.identity, ← h.identity, hview]
  obtain ⟨index, hindex⟩ := outline_single (fileKeys_coherent diff) nodes_placed
    (fun p hp => by cases hp) hrow hnode hchild (hparents.mp hparent) hrows
  exact ⟨index, h.file_iff.mpr hindex⟩

theorem treeRows : TreeRows diff collapsed ((outlineRows diff collapsed).map view) where
  flag := by
    intro entry hentry directory hidentity
    obtain ⟨row, -, rfl⟩ := mem_map.mp hentry
    exact h.flag row directory (h.directory_iff.mp hidentity)
  shown := by
    intro index habove
    rw [h.collapsedAbove_iff, not_ne_iff] at habove
    exact count_eq_one_of_mem h.unique ((h.file_mem_iff index).mpr habove)
  hidden := by
    intro index habove
    rw [h.collapsedAbove_iff] at habove
    exact count_eq_zero.mpr (fun hmem => habove ((h.file_mem_iff index).mp hmem))
  unique := h.unique
  depthFirst := fun _ _ _ _ hentries hidentity => h.depthFirst hentries hidentity
  parent := by
    intro entry hentry
    obtain ⟨row, hrow, rfl⟩ := mem_map.mp hentry
    exact h.parentInnermost hrow
  compact := by
    intro entry hentry directory hidentity child hchild hparent honly
    obtain ⟨row, hrow, rfl⟩ := mem_map.mp hentry
    obtain ⟨row', hrow', rfl⟩ := mem_map.mp hchild
    exact h.compact hrow (h.directory_iff.mp hidentity) hrow' hparent honly

end Shows

end Shows

section Builds

variable (diff : Diff.Diff) (tallies : Fin diff.files.length → FileTally)
  (activeFile : Option (Fin diff.files.length)) (contentWidth : Nat) (metrics : CellMetrics)

/-- When one directory row is collapsed or expanded, only its own flag and the rows inside it
change. -/
def TogglesOne (collapsed : List Bytes) (entries : List Bytes → List Entry) : Prop :=
  ∀ collapsed' directory, (∀ path, path ≠ directory →
      containsPath collapsed' path = containsPath collapsed path) →
    ∀ before entry after, entries collapsed = before ++ entry :: after →
      entry.identity = .directory directory →
        ∃ inside inside' outside, after = inside ++ outside ∧
          entries collapsed' = before ++
            { entry with expanded := !containsPath collapsed' directory } ::
              (inside' ++ outside) ∧
          ∀ other ∈ inside ++ inside', pathDescends (entryPath diff other) directory = true

theorem entryOf_same {collapsed collapsed' : List Bytes} {directory : Bytes}
    (hsame : ∀ path, path ≠ directory → containsPath collapsed' path = containsPath collapsed path)
    {row : Forest.Row Bytes (Fin diff.files.length)} (hnode : row.node ≠ .inl directory) :
    entryOf diff tallies collapsed' activeFile contentWidth metrics row =
      entryOf diff tallies collapsed activeFile contentWidth metrics row := by
  obtain ⟨parent, depth, node⟩ := row
  cases node with
  | inl path =>
    have hne : path ≠ directory := fun heq => hnode (congrArg Sum.inl heq)
    simp only [entryOf, directoryEntry, hsame path hne]
  | inr index => rfl

theorem builtEntries_toggle (collapsed : List Bytes) : TogglesOne diff collapsed
    (fun collapsed => builtEntries diff tallies collapsed activeFile contentWidth metrics) := by
  intro collapsed' directory hsame before entry after hentries hidentity
  have h := entryOf_shows tallies collapsed activeFile contentWidth metrics
  have h' := entryOf_shows tallies collapsed' activeFile contentWidth metrics
  simp only [builtEntries_eq] at hentries ⊢
  obtain ⟨front, back, hrows, rfl, hback⟩ := map_eq_append_iff.mp hentries
  obtain ⟨row, back, rfl, rfl, rfl⟩ := map_eq_cons_iff.mp hback
  have hnode := h.directory_iff.mp hidentity
  have hrow : row ∈ outlineRows diff collapsed := by rw [hrows]; simp
  obtain ⟨inside, inside', outside, rfl, hrows', hin, hin'⟩ :=
    outline_toggle (fileKeys_coherent diff) nodes_placed hsame hrows hnode
  have hother : ∀ other ∈ front ++ outside, other.node ≠ .inl directory := by
    intro other hother heq
    have hnodup : ((outlineRows diff collapsed).map Forest.Row.node).Nodup :=
      outline_nodup (fileKeys_coherent diff) nodes_placed nodes_nodup
    rw [hrows, map_append, map_cons, nodup_middle, nodup_cons, ← map_append] at hnodup
    refine hnodup.1 (mem_map.mpr ⟨other, ?_, heq.trans hnode.symm⟩)
    obtain hother | hother := mem_append.mp hother
    · exact mem_append_left _ hother
    · exact mem_append_right _ (mem_append_right _ hother)
  refine ⟨inside.map _, inside'.map (entryOf diff tallies collapsed' activeFile contentWidth metrics),
    outside.map _, map_append, ?_, fun other hother => ?_⟩
  · rw [outlineRows, hrows', map_append, map_cons, map_append]
    congr 1
    · exact map_congr_left (fun other hmem =>
        entryOf_same diff tallies activeFile contentWidth metrics hsame
          (hother other (mem_append_left _ hmem)))
    · congr 1
      · obtain ⟨parent, depth, node⟩ := row
        cases hnode
        rfl
      · congr 1
        exact map_congr_left (fun other hmem =>
          entryOf_same diff tallies activeFile contentWidth metrics hsame
            (hother other (mem_append_right _ hmem)))
  · rw [mem_append] at hother
    obtain hother | hother := hother
    · obtain ⟨other, hmem, rfl⟩ := mem_map.mp hother
      exact (h.mem_above_iff hrow hnode).mp (hin other hmem)
    · obtain ⟨other, hmem, rfl⟩ := mem_map.mp hother
      have hrow' : row ∈ outlineRows diff collapsed' := by rw [outlineRows, hrows']; simp
      exact (h'.mem_above_iff hrow' hnode).mp (hin' other hmem)

end Builds

/-- The cursor is a row in view, and the rows are not scrolled past their last page. -/
structure CursorShown (projection : Projection) : Prop where
  empty : projection.entries = [] → projection.cursor = 0
  cursor : projection.entries ≠ [] → projection.cursor < projection.entries.length
  scroll : projection.scroll ≤ projection.entries.length - projection.viewport
  visible : projection.entries ≠ [] → projection.scroll ≤ projection.cursor ∧
    projection.cursor < projection.scroll + projection.viewport

theorem cursorOf_lt {entries : List Entry} (hne : entries ≠ []) (count : Nat)
    (wantedCursor : Option Identity) : cursorOf entries count wantedCursor < entries.length := by
  have hpos := length_pos_iff.mpr hne
  simp only [cursorOf, if_pos hpos]
  omega

theorem cursorOf_nil (count : Nat) (wantedCursor : Option Identity) :
    cursorOf [] count wantedCursor = 0 := by
  cases wantedCursor with
  | none => rfl
  | some wanted =>
    cases wanted with
    | directory path => rfl
    | file index => simp [cursorOf, findVisible, nearestVisibleAncestor]

theorem scrollOf_le {len cursor : Nat} (hcursor : cursor < len ∨ len = 0 ∧ cursor = 0)
    (viewport wantedScroll : Nat) : scrollOf len cursor viewport wantedScroll ≤ len - viewport := by
  simp only [scrollOf]
  split <;> split <;> omega

theorem scrollOf_visible (len cursor : Nat) {viewport : Nat} (hviewport : 0 < viewport)
    (wantedScroll : Nat) : scrollOf len cursor viewport wantedScroll ≤ cursor ∧
      cursor < scrollOf len cursor viewport wantedScroll + viewport := by
  simp only [scrollOf]
  split <;> split <;> omega

def Entry.directory? (entry : Entry) : Option Bytes :=
  match entry.identity with
  | .directory path => some path
  | .file _ => none

theorem Entry.directory?_eq {entry : Entry} {path : Bytes} :
    entry.directory? = some path ↔ entry.identity = .directory path := by
  rw [Entry.directory?]
  cases entry.identity <;> simp

/-- The row for hidden Files: where the active File is hidden, and else the first row. -/
def fallback (diff : Diff.Diff) (collapsed : List Bytes)
    (activeFile : Option (Fin diff.files.length)) : Option Bytes :=
  match activeFile.bind (hiddenBy diff collapsed) with
  | some directory => some directory
  | none => (nodes diff).firstGroup

section Hidden

variable {diff : Diff.Diff} {tallies : Fin diff.files.length → FileTally}
  {collapsed : List Bytes} {activeFile : Option (Fin diff.files.length)} {contentWidth : Nat}
  {metrics : CellMetrics}

/-- The row that stands for a hidden File is that of the active File. -/
theorem ancestor_iff {entry : Entry}
    (hentry : entry ∈ builtEntries diff tallies collapsed activeFile contentWidth metrics) :
    (entry.isDirectory && !entry.expanded && entry.activeDescendant) = true ↔
      ∃ directory, entry.identity = .directory directory ∧
        activeFile.bind (hiddenBy diff collapsed) = some directory := by
  have h := entryOf_shows tallies collapsed activeFile contentWidth metrics
  rw [builtEntries_eq] at hentry
  have hmem := hentry
  obtain ⟨row, hrow, rfl⟩ := mem_map.mp hentry
  cases hnode : row.node with
  | inr index =>
    have hidentity := h.file_iff.mpr hnode
    simp [Entry.isDirectory, hidentity]
  | inl path =>
    have hidentity := h.directory_iff.mpr hnode
    have hflag := h.flag row path hnode
    have hactive : (entryOf diff tallies collapsed activeFile contentWidth metrics
        row).activeDescendant =
          activeFile.any (fun index => pathDescends (filePath diff index) path) := by
      obtain ⟨parent, depth, node⟩ := row
      cases hnode
      rfl
    simp only [Entry.isDirectory, hidentity, hflag, hactive, Bool.true_and, Bool.not_not,
      Bool.and_eq_true, Identity.directory.injEq, exists_eq_left']
    cases activeFile with
    | none => simp
    | some index =>
      rw [Option.bind_some, h.hiddenBy_iff]
      exact ⟨fun hboth => ⟨_, hmem, hidentity, hboth⟩, fun ⟨_, _, _, hboth⟩ => hboth⟩

theorem builtEntries_head :
    (builtEntries diff tallies collapsed activeFile contentWidth metrics).head?.bind
      Entry.directory? = (nodes diff).firstGroup := by
  have h := entryOf_shows tallies collapsed activeFile contentWidth metrics
  have hhead := outline_head (containsPath collapsed) (nodes diff) none 0
  rw [builtEntries_eq, head?_map, ← hhead]
  change _ = (outlineRows diff collapsed).head?.bind groupOf
  cases (outlineRows diff collapsed).head? with
  | none => rfl
  | some row =>
    rw [Option.map_some, Option.bind_some, Option.bind_some, Entry.directory?, h.identity, groupOf]
    cases row.node <;> rfl

theorem builtEntries_ne_nil (index : Fin diff.files.length) :
    builtEntries diff tallies collapsed activeFile contentWidth metrics ≠ [] := by
  have h := entryOf_shows tallies collapsed activeFile contentWidth metrics
  rw [builtEntries_eq]
  intro hnil
  cases hhidden : hiddenBy diff collapsed index with
  | none =>
    have := (h.file_mem_iff index).mpr hhidden
    rw [hnil] at this
    cases this
  | some directory =>
    obtain ⟨entry, hentry, -⟩ := h.hiddenBy_iff.mp hhidden
    rw [hnil] at hentry
    cases hentry

theorem builtEntries_nil (hfiles : diff.files = []) :
    builtEntries diff tallies collapsed activeFile contentWidth metrics = [] := by
  have hlength : diff.files.length = 0 := by rw [hfiles]; rfl
  have hnil : (nodes diff).items = [] := by
    refine eq_nil_iff_forall_not_mem.mpr (fun index _ => ?_)
    have := index.isLt
    omega
  rw [builtEntries_eq, outlineRows]
  have hplaced := @nodes_placed diff
  cases hnodes : nodes diff with
  | nil => simp [outline]
  | item index rest =>
    rw [hnodes] at hnil
    cases hnil
  | group path members rest =>
    rw [hnodes] at hnil hplaced
    exact absurd (append_eq_nil_iff.mp hnil).1 hplaced.1

/-- What the cursor is on when the File that is asked for is hidden. -/
theorem cursor_fallback {index : Fin diff.files.length} {directory : Bytes}
    (hhidden : hiddenBy diff collapsed index = some directory) :
    ((builtEntries diff tallies collapsed activeFile contentWidth metrics)[cursorOf
      (builtEntries diff tallies collapsed activeFile contentWidth metrics)
      ((nodes diff).size + 1) (some (.file index))]?).bind Entry.directory? =
        fallback diff collapsed activeFile := by
  have h := entryOf_shows tallies collapsed activeFile contentWidth metrics
  have hancestor := @ancestor_iff diff tallies collapsed activeFile contentWidth metrics
  have hhead := @builtEntries_head diff tallies collapsed activeFile contentWidth metrics
  have hne := @builtEntries_ne_nil diff tallies collapsed activeFile contentWidth metrics index
  have hgone : Identity.file index ∉
      (builtEntries diff tallies collapsed activeFile contentWidth metrics).map Entry.identity := by
    rw [builtEntries_eq, h.file_mem_iff, hhidden]
    exact fun heq => by cases heq
  have hrow : ∀ directory', activeFile.bind (hiddenBy diff collapsed) = some directory' →
      ∃ entry ∈ builtEntries diff tallies collapsed activeFile contentWidth metrics,
        entry.identity = .directory directory' := by
    intro directory' hbind
    obtain ⟨active, -, hactive⟩ := Option.bind_eq_some_iff.mp hbind
    obtain ⟨entry, hentry, hidentity, -⟩ := h.hiddenBy_iff.mp hactive
    exact ⟨entry, builtEntries_eq diff tallies collapsed activeFile contentWidth metrics ▸ hentry,
      hidentity⟩
  generalize builtEntries diff tallies collapsed activeFile contentWidth metrics = entries at *
  have hvisible : findVisible entries (.file index) = none := by
    refine findIdx?_eq_none_iff.mpr (fun entry hentry => ?_)
    exact beq_eq_false_iff_ne.mpr (fun heq => hgone (mem_map.mpr ⟨entry, hentry, heq⟩))
  have hcount : ¬(nodes diff).size + 1 ≤ index.val := by
    have := index_lt_size index
    omega
  have hpos := length_pos_iff.mpr hne
  simp only [cursorOf, hvisible, nearestVisibleAncestor, if_neg hcount, if_pos hpos, Option.none_or]
  cases hactive : activeFile.bind (hiddenBy diff collapsed) with
  | none =>
    have hnone : entries.findIdx? (fun entry =>
        entry.isDirectory && !entry.expanded && entry.activeDescendant) = none := by
      refine findIdx?_eq_none_iff.mpr (fun entry hentry => ?_)
      rw [← Bool.not_eq_true, hancestor hentry, hactive]
      rintro ⟨_, -, heq⟩
      cases heq
    rw [hnone, fallback, hactive, ← hhead, head?_eq_getElem?]
    simp
  | some directory' =>
    obtain ⟨entry, hentry, hidentity⟩ := hrow directory' hactive
    have htrue := (hancestor hentry).mpr ⟨directory', hidentity, hactive⟩
    cases hfind : entries.findIdx? (fun entry =>
        entry.isDirectory && !entry.expanded && entry.activeDescendant) with
    | none =>
      rw [findIdx?_eq_none_iff.mp hfind entry hentry] at htrue
      cases htrue
    | some place =>
      obtain ⟨hlt, hplace, -⟩ := findIdx?_eq_some_iff_getElem.mp hfind
      obtain ⟨directory'', hidentity', hactive'⟩ := (hancestor (getElem_mem hlt)).mp hplace
      obtain rfl := Option.some.inj (hactive.symm.trans hactive')
      rw [Option.getD_some, Nat.min_eq_left (by omega), getElem?_eq_getElem hlt,
        Option.bind_some, Entry.directory?_eq.mpr hidentity', fallback, hactive]

end Hidden

section Projection

variable (diff : Diff.Diff) (tallies : Fin diff.files.length → FileTally)
  (collapsed : List Bytes) (activeFile : Option (Fin diff.files.length))
  (contentWidth viewport : Nat) (wantedCursor : Option Identity) (wantedScroll : Nat)
  (metrics : CellMetrics)

/-- A File that is asked for and has no row is resolved to the collapsed row around it. -/
def WantedResolves (projection : Projection) : Prop :=
  ∀ index : Fin diff.files.length, wantedCursor = some (.file index) →
    Identity.file index ∉ projection.entries.map Entry.identity →
      ∃ entry directory, projection.entries[projection.cursor]? = some entry ∧
        entry.identity = .directory directory ∧ containsPath collapsed directory = true ∧
        pathDescends (filePath diff index) directory = true

structure ExactTree : Prop where
  rows : TreeRows diff collapsed (build diff tallies collapsed activeFile contentWidth viewport
    wantedCursor wantedScroll metrics).entries
  toggles : TogglesOne diff collapsed (fun collapsed => (build diff tallies collapsed activeFile
    contentWidth viewport wantedCursor wantedScroll metrics).entries)
  cursor : CursorShown (build diff tallies collapsed activeFile contentWidth viewport wantedCursor
    wantedScroll metrics)
  wanted : WantedResolves diff collapsed wantedCursor (build diff tallies collapsed activeFile
    contentWidth viewport wantedCursor wantedScroll metrics)

theorem build_eq : build diff tallies collapsed activeFile contentWidth viewport wantedCursor
    wantedScroll metrics = ⟨builtEntries diff tallies collapsed activeFile contentWidth metrics,
        cursorOf (builtEntries diff tallies collapsed activeFile contentWidth metrics)
          ((nodes diff).size + 1) wantedCursor,
        scrollOf (builtEntries diff tallies collapsed activeFile contentWidth metrics).length
          (cursorOf (builtEntries diff tallies collapsed activeFile contentWidth metrics)
            ((nodes diff).size + 1) wantedCursor) viewport wantedScroll,
        viewport⟩ := rfl

theorem cursorShown_iff : CursorShown (build diff tallies collapsed activeFile contentWidth viewport
    wantedCursor wantedScroll metrics) ↔ 0 < viewport ∨ diff.files = [] := by
  rw [build_eq]
  have hne' := @builtEntries_ne_nil diff tallies collapsed activeFile contentWidth metrics
  have hnil' := @builtEntries_nil diff tallies collapsed activeFile contentWidth metrics
  generalize builtEntries diff tallies collapsed activeFile contentWidth metrics = entries at *
  constructor
  · intro h
    by_contra hnot
    rw [not_or] at hnot
    obtain ⟨hle, hlt⟩ := h.visible (hne' ⟨0, length_pos_iff.mpr hnot.2⟩)
    simp only at hle hlt
    omega
  · intro h
    refine ⟨fun hnil => ?_, fun hne => cursorOf_lt hne _ wantedCursor,
      scrollOf_le ?_ viewport wantedScroll, fun hne => ?_⟩
    · simp only at hnil ⊢
      rw [hnil, cursorOf_nil]
    · by_cases hnil : entries = []
      · rw [hnil, cursorOf_nil]
        exact .inr ⟨rfl, rfl⟩
      · exact .inl (cursorOf_lt hnil _ wantedCursor)
    · cases h with
      | inl hviewport => exact scrollOf_visible _ _ hviewport wantedScroll
      | inr hfiles => exact absurd (hnil' hfiles) hne

theorem wantedResolves_iff : WantedResolves diff collapsed wantedCursor (build diff tallies collapsed
    activeFile contentWidth viewport wantedCursor wantedScroll metrics) ↔
      ∀ (index : Fin diff.files.length) (directory : Bytes), wantedCursor = some (.file index) →
        hiddenBy diff collapsed index = some directory →
          fallback diff collapsed activeFile = some directory := by
  have h := entryOf_shows tallies collapsed activeFile contentWidth metrics
  rw [build_eq]
  constructor
  · intro hresolves index directory hwanted hhidden
    have hcursor := @cursor_fallback diff tallies collapsed activeFile contentWidth metrics index
      directory hhidden
    obtain ⟨entry, directory', hentry, hidentity, hclosed, hdescends⟩ := hresolves index hwanted (by
      rw [builtEntries_eq, h.file_mem_iff, hhidden]
      exact fun heq => by cases heq)
    have hmem := mem_of_getElem? hentry
    rw [builtEntries_eq] at hmem
    have hhidden' := h.hiddenBy_iff.mpr ⟨entry, hmem, hidentity, hclosed, hdescends⟩
    obtain rfl := Option.some.inj (hhidden.symm.trans hhidden')
    rw [hwanted] at hentry
    rw [hentry, Option.bind_some, Entry.directory?_eq.mpr hidentity] at hcursor
    exact hcursor.symm
  · intro hfallback index hwanted hnot
    rw [builtEntries_eq, h.file_mem_iff] at hnot
    obtain ⟨directory, hhidden⟩ := Option.ne_none_iff_exists'.mp hnot
    have hcursor := @cursor_fallback diff tallies collapsed activeFile contentWidth metrics index
      directory hhidden
    rw [hfallback index directory hwanted hhidden] at hcursor
    obtain ⟨entry, hentry, hdirectory⟩ := Option.bind_eq_some_iff.mp hcursor
    obtain ⟨hclosed, hkey⟩ := hiddenBy_closed hhidden
    rw [← hwanted] at hentry
    exact ⟨entry, directory, hentry, Entry.directory?_eq.mp hdirectory, hclosed,
      (mem_directoryPaths.mp hkey).2⟩

theorem exactTree_iff : ExactTree diff tallies collapsed activeFile contentWidth viewport wantedCursor
    wantedScroll metrics ↔ (0 < viewport ∨ diff.files = []) ∧
      ∀ (index : Fin diff.files.length) (directory : Bytes), wantedCursor = some (.file index) →
        hiddenBy diff collapsed index = some directory →
          fallback diff collapsed activeFile = some directory := by
  constructor
  · intro h
    exact ⟨(cursorShown_iff ..).mp h.cursor, (wantedResolves_iff ..).mp h.wanted⟩
  · rintro ⟨hviewport, hwanted⟩
    refine ⟨?_, builtEntries_toggle diff tallies activeFile contentWidth metrics collapsed,
      (cursorShown_iff ..).mpr hviewport, (wantedResolves_iff ..).mpr hwanted⟩
    have h := entryOf_shows tallies collapsed activeFile contentWidth metrics
    change TreeRows diff collapsed (builtEntries diff tallies collapsed activeFile contentWidth metrics)
    rw [builtEntries_eq]
    exact h.treeRows

end Projection

/-- Two Files in collapsed directories of their own. -/
def twoDirectories : Diff.Diff :=
  ⟨[⟨ascii "a/x", ascii "a/x", .modified, [], {}⟩, ⟨ascii "b/y", ascii "b/y", .modified, [], {}⟩]⟩

/-- The active File hides behind one directory and the File that is asked for behind the other. -/
theorem hidden_in_other_directory : ¬ExactTree twoDirectories (fun _ => ⟨0, 0⟩) [ascii "a", ascii "b"]
    (some ⟨0, by decide⟩) 28 8 (some (.file 1)) 0 .bytes := by
  intro h
  obtain ⟨entry, directory, hentry, hidentity, -, hdescends⟩ :=
    h.wanted ⟨1, by decide⟩ rfl (by decide)
  have hfirst : ((build twoDirectories (fun _ => ⟨0, 0⟩) [ascii "a", ascii "b"]
      (some ⟨0, by decide⟩) 28 8 (some (.file 1)) 0 .bytes).entries[(build twoDirectories
        (fun _ => ⟨0, 0⟩) [ascii "a", ascii "b"] (some ⟨0, by decide⟩) 28 8 (some (.file 1)) 0
          .bytes).cursor]?).map Entry.identity = some (.directory (ascii "a")) := by decide
  rw [hentry, Option.map_some, hidentity] at hfirst
  obtain rfl := Identity.directory.inj (Option.some.inj hfirst)
  exact absurd hdescends (by decide)

end Bbr.Tui.FileTree

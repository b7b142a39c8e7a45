import Bbr.Lib.Trims
import Mathlib.Data.List.Forall2
import Mathlib.Data.List.TakeWhile

/-!
# Walking over marked blocks

A list is laid out as gaps without marks and blocks of marked elements. A walk that knows the blocks,
and finds the gaps by the marks alone, takes up to the next mark, then the block, then passes over the
marks. It gives the list back unless it passes over a block that it has not come to yet while something
without a mark still follows.
-/
namespace Bbr.Lib

open List

variable {α : Type} (mark : α → Bool)

/-- Gaps, each with the block behind it. -/
abbrev Laid (α : Type) := List (List α × List α)

def flat : Laid α → List α → List α
  | [], tail => tail
  | (gap, block) :: laid, tail => gap ++ block ++ flat laid tail

def unmarked (rest : List α) : List α := rest.takeWhile (fun x => !mark x)

/-- From the next mark on, past the marks. -/
def advance (rest : List α) : List α := (rest.dropWhile (fun x => !mark x)).dropWhile mark

def walk : List α → List (List α) → List α
  | rest, [] => rest
  | rest, block :: blocks => unmarked mark rest ++ block ++ walk (advance mark rest) blocks

/-- What the gaps of two walks, side by side, pair. -/
def meets {β : Type} (other : β → Bool) : Nat → List α → List β → List (α × β)
  | 0, rest, others => rest.zip others
  | pieces + 1, rest, others =>
    (unmarked mark rest).zip (unmarked other others) ++
      meets other pieces (advance mark rest) (advance other others)

/-- Gaps have no marks, and blocks nothing else. -/
def Marked (laid : Laid α) (tail : List α) : Prop :=
  (∀ piece ∈ laid, (∀ x ∈ piece.1, mark x = false) ∧ ∀ x ∈ piece.2, mark x = true) ∧
    ∀ x ∈ tail, mark x = false

/-- The walk comes to every block before it passes over its marks, or nothing without a mark
follows. -/
def InStep : Laid α → List α → Prop
  | [], _ => True
  | (_, []) :: laid, tail => ∀ x ∈ (flat laid tail).dropWhile (fun x => !mark x), mark x = true
  | (_, _ :: _) :: laid, tail =>
    ((∀ x ∈ (flat laid tail).head?, mark x = false) ∧ InStep laid tail) ∨
      ∀ x ∈ flat laid tail, mark x = true

variable {mark} {laid : Laid α} {tail gap block rest : List α}

theorem Marked.tail_marked (h : Marked mark ((gap, block) :: laid) tail) : Marked mark laid tail :=
  ⟨fun piece hp => h.1 piece (mem_cons_of_mem _ hp), h.2⟩

theorem unmarked_gap (hgap : ∀ x ∈ gap, mark x = false) :
    unmarked mark (gap ++ rest) = gap ++ unmarked mark rest := by
  exact takeWhile_append_of_pos (fun x hx => by rw [hgap x hx]; rfl)

theorem advance_gap (hgap : ∀ x ∈ gap, mark x = false) :
    advance mark (gap ++ rest) = advance mark rest := by
  unfold advance
  rw [dropWhile_append_of_pos (fun x hx => by rw [hgap x hx]; rfl)]

theorem unmarked_block (hblock : ∀ x ∈ block, mark x = true) (hne : block ≠ []) :
    unmarked mark (block ++ rest) = [] := by
  cases block with
  | nil => exact absurd rfl hne
  | cons x block =>
    have hx := hblock x mem_cons_self
    exact takeWhile_cons_of_neg (by rw [hx]; decide)

theorem advance_block (hblock : ∀ x ∈ block, mark x = true) (hne : block ≠ []) :
    advance mark (block ++ rest) = rest.dropWhile mark := by
  cases block with
  | nil => exact absurd rfl hne
  | cons x block =>
    have hx := hblock x mem_cons_self
    unfold advance
    rw [cons_append, dropWhile_cons_of_neg (by rw [hx]; decide), ← cons_append]
    exact dropWhile_append_of_pos hblock

theorem walk_nil (blocks : List (List α)) : walk mark [] blocks = blocks.flatten := by
  induction blocks with
  | nil => rfl
  | cons block blocks ih =>
    rw [walk, flatten_cons]
    change [] ++ block ++ walk mark [] blocks = _
    rw [ih, nil_append]

theorem filter_flat (h : Marked mark laid tail) :
    (flat laid tail).filter mark = (laid.map Prod.snd).flatten := by
  induction laid with
  | nil => exact filter_eq_nil_iff.mpr (fun x hx => by rw [h.2 x hx]; decide)
  | cons piece laid ih =>
    obtain ⟨gap, block⟩ := piece
    obtain ⟨hgap, hblock⟩ := h.1 _ mem_cons_self
    have hgap' : gap.filter mark = [] := filter_eq_nil_iff.mpr (fun x hx => by rw [hgap x hx]; decide)
    rw [flat, filter_append, filter_append, hgap', filter_eq_self.mpr hblock, ih h.tail_marked]
    rfl

/-- A list that begins with a mark is not walked back to once its marks are passed over. -/
theorem walk_passed {ys : List α} {blocks : List (List α)} (hblocks : ys.filter mark = blocks.flatten)
    {x : α} (hx : ys.head? = some x) (hmark : mark x = true) :
    walk mark (ys.dropWhile mark) blocks = ys ↔ ∀ y ∈ ys, mark y = true := by
  cases hpassed : ys.dropWhile mark with
  | nil =>
    have hall := dropWhile_eq_nil_iff.mp hpassed
    rw [walk_nil, ← hblocks]
    exact ⟨fun _ => hall, fun _ => filter_eq_self.mpr hall⟩
  | cons y rest =>
    have hy : mark y = false := by
      have hhead := head?_dropWhile_not mark ys
      rw [hpassed, head?_cons] at hhead
      simpa using hhead
    constructor
    · intro heq
      exfalso
      have hfirst : (walk mark (y :: rest) blocks).head? = some y := by
        cases blocks with
        | nil => rfl
        | cons block blocks =>
          rw [walk, unmarked, takeWhile_cons_of_pos (by rw [hy]; rfl)]
          rfl
      rw [heq, hx, Option.some.injEq] at hfirst
      rw [hfirst, hy] at hmark
      cases hmark
    · intro hall
      have hmem : y ∈ ys := (dropWhile_suffix mark).subset (by rw [hpassed]; exact mem_cons_self)
      rw [hall y hmem] at hy
      cases hy

theorem walk_advance (h : Marked mark laid tail) :
    unmarked mark (flat laid tail) ++ walk mark (advance mark (flat laid tail)) (laid.map Prod.snd) =
        flat laid tail ↔
      ∀ x ∈ (flat laid tail).dropWhile (fun x => !mark x), mark x = true := by
  have hsplit := takeWhile_append_dropWhile (p := fun x => !mark x) (l := flat laid tail)
  have hblocks : ((flat laid tail).dropWhile (fun x => !mark x)).filter mark =
      (laid.map Prod.snd).flatten := by
    have hnone : ((flat laid tail).takeWhile (fun x => !mark x)).filter mark = [] := by
      refine filter_eq_nil_iff.mpr (fun x hx => ?_)
      simpa using mem_takeWhile_imp hx
    rw [← filter_flat h]
    nth_rewrite 2 [← hsplit]
    rw [filter_append, hnone, nil_append]
  nth_rewrite 3 [← hsplit]
  rw [unmarked, append_cancel_left_eq, advance]
  cases hrest : (flat laid tail).dropWhile (fun x => !mark x) with
  | nil =>
    rw [hrest] at hblocks
    rw [dropWhile_nil, walk_nil, ← hblocks]
    exact ⟨fun _ x hx => absurd hx not_mem_nil, fun _ => rfl⟩
  | cons x rest =>
    rw [hrest] at hblocks
    have hx : mark x = true := by
      have hhead := head?_dropWhile_not (fun x => !mark x) (flat laid tail)
      rw [hrest, head?_cons] at hhead
      simpa using hhead
    exact walk_passed hblocks rfl hx

/-- The walk gives the list back if and only if it keeps in step with the blocks. -/
theorem walk_eq_iff (h : Marked mark laid tail) :
    walk mark (flat laid tail) (laid.map Prod.snd) = flat laid tail ↔ InStep mark laid tail := by
  induction laid with
  | nil => exact ⟨fun _ => trivial, fun _ => rfl⟩
  | cons piece laid ih =>
    obtain ⟨gap, block⟩ := piece
    obtain ⟨hgap, hblock⟩ := h.1 _ mem_cons_self
    have ih := ih h.tail_marked
    rw [map_cons, walk, flat, append_assoc, append_assoc, unmarked_gap hgap,
      advance_gap hgap, append_assoc, append_cancel_left_eq]
    cases block with
    | nil => exact walk_advance h.tail_marked
    | cons x block =>
      rw [unmarked_block hblock (cons_ne_nil _ _), advance_block hblock (cons_ne_nil _ _),
        nil_append, append_cancel_left_eq, InStep]
      cases hhead : (flat laid tail).head? with
      | none =>
        rw [head?_eq_none_iff] at hhead
        have hend : walk mark [] (laid.map Prod.snd) = [] := by
          rw [walk_nil, ← filter_flat h.tail_marked, hhead, filter_nil]
        rw [hhead] at ih ⊢
        have hstep := ih.mp hend
        exact ⟨fun _ => .inl ⟨fun y hy => absurd hy (Option.not_mem_none y), hstep⟩, fun _ => hend⟩
      | some y =>
        cases hy : mark y with
        | false =>
          have hstart : ∀ z ∈ (flat laid tail).head?, mark z = false := by
            intro z hz
            rw [hhead] at hz
            cases hz
            exact hy
          rw [dropWhile_eq_self hstart, ih]
          constructor
          · intro hstep
            exact .inl ⟨by rwa [← hhead], hstep⟩
          rintro (⟨-, hstep⟩ | hall)
          · exact hstep
          · have hmem := hall y (mem_of_mem_head? hhead)
            rw [hy] at hmem
            cases hmem
        | true =>
          rw [walk_passed (filter_flat h.tail_marked) hhead hy]
          constructor
          · exact .inr
          rintro (⟨hstart, -⟩ | hall)
          · have hfirst := hstart y rfl
            rw [hy] at hfirst
            cases hfirst
          · exact hall

/-- Kept in step, a walk goes on behind its block, or is at its end. -/
theorem advance_inStep (h : Marked mark ((gap, block) :: laid) tail)
    (hstep : InStep mark ((gap, block) :: laid) tail) :
    (advance mark (flat ((gap, block) :: laid) tail) = flat laid tail ∧ InStep mark laid tail) ∨
      advance mark (flat ((gap, block) :: laid) tail) = [] := by
  obtain ⟨hgap, hblock⟩ := h.1 _ mem_cons_self
  rw [flat, append_assoc, advance_gap hgap]
  cases block with
  | nil =>
    right
    exact dropWhile_eq_nil_iff.mpr hstep
  | cons x block =>
    rw [advance_block hblock (cons_ne_nil _ _)]
    obtain ⟨hstart, hnext⟩ | hall := hstep
    · exact .inl ⟨dropWhile_eq_self hstart, hnext⟩
    · exact .inr (dropWhile_eq_nil_iff.mpr hall)

theorem inStep_single (h : Marked mark [(gap, block)] tail) : InStep mark [(gap, block)] tail := by
  cases block with
  | nil =>
    intro x hx
    rw [flat, dropWhile_eq_nil_iff.mpr (fun y hy => by rw [h.2 y hy]; rfl)] at hx
    cases hx
  | cons x block => exact .inl ⟨fun y hy => h.2 y (mem_of_mem_head? hy), trivial⟩

/-- Two blocks on end: the second one begins behind the first and a gap, or no gap follows it. -/
theorem inStep_cons_cons {gap' block' : List α}
    (h : Marked mark ((gap, block) :: (gap', block') :: laid) tail) :
    InStep mark ((gap, block) :: (gap', block') :: laid) tail ↔
      (block' ≠ [] → (block ≠ [] ∧ gap' ≠ []) ∨ ∀ x ∈ flat laid tail, mark x = true) ∧
        InStep mark ((gap', block') :: laid) tail := by
  obtain ⟨hgap, hblock⟩ := h.tail_marked.1 _ mem_cons_self
  have hskip : (flat ((gap', block') :: laid) tail).dropWhile (fun x => !mark x) =
      (block' ++ flat laid tail).dropWhile (fun x => !mark x) := by
    rw [flat, append_assoc]
    exact dropWhile_append_of_pos (fun x hx => by rw [hgap x hx]; rfl)
  cases block' with
  | nil =>
    have hsame : InStep mark ((gap', []) :: laid) tail ↔
        ∀ x ∈ (flat laid tail).dropWhile (fun x => !mark x), mark x = true := Iff.rfl
    cases block with
    | nil =>
      rw [InStep, hskip, nil_append, hsame]
      exact ⟨fun hall => ⟨fun hne => absurd rfl hne, hall⟩, And.right⟩
    | cons x block =>
      constructor
      · rintro (⟨-, hnext⟩ | hall)
        · exact ⟨fun hne => absurd rfl hne, hnext⟩
        · refine ⟨fun hne => absurd rfl hne, fun y hy => hall y ?_⟩
          exact mem_append_right _ ((dropWhile_suffix _).subset hy)
      rintro ⟨-, hnext⟩
      by_cases hhead : ∀ y ∈ (flat ((gap', []) :: laid) tail).head?, mark y = false
      · exact .inl ⟨hhead, hnext⟩
      right
      have hstay : (flat ((gap', []) :: laid) tail).dropWhile (fun x => !mark x) =
          flat ((gap', []) :: laid) tail := by
        refine dropWhile_eq_self (fun y hy => ?_)
        by_contra hmark
        refine hhead (fun z hz => ?_)
        rw [Option.mem_unique hz hy]
        simpa using hmark
      rw [← hstay, hskip, nil_append]
      exact hsame.mp hnext
  | cons y block' =>
    have hy : mark y = true := hblock y mem_cons_self
    have hfollow : (∀ x ∈ (y :: block') ++ flat laid tail, mark x = true) ↔
        ∀ x ∈ flat laid tail, mark x = true := by
      constructor
      · exact fun hall x hx => hall x (mem_append_right _ hx)
      · exact fun hall x hx => (mem_append.mp hx).elim (hblock x) (hall x)
    have hsettled : (∀ x ∈ flat laid tail, mark x = true) →
        InStep mark ((gap', y :: block') :: laid) tail := .inr
    have hstay : ((y :: block') ++ flat laid tail).dropWhile (fun x => !mark x) =
        (y :: block') ++ flat laid tail := dropWhile_cons_of_neg (by rw [hy]; decide)
    cases block with
    | nil =>
      rw [InStep, hskip, hstay, hfollow]
      constructor
      · exact fun hall => ⟨fun _ => .inr hall, hsettled hall⟩
      · exact fun hall => (hall.1 (cons_ne_nil _ _)).elim (fun h => absurd rfl h.1) id
    | cons x block =>
      rw [InStep]
      cases gap' with
      | nil =>
        rw [flat, nil_append, hfollow]
        constructor
        · rintro (⟨hstart, -⟩ | hall)
          · rw [hstart y rfl] at hy
            cases hy
          · exact ⟨fun _ => .inr hall, hsettled hall⟩
        · rintro ⟨hall, -⟩
          obtain hgap | hall := hall (cons_ne_nil _ _)
          · exact absurd rfl hgap.2
          · exact .inr hall
      | cons z gap' =>
        have hz : mark z = false := hgap z mem_cons_self
        constructor
        · rintro (⟨-, hnext⟩ | hall)
          · exact ⟨fun _ => .inl ⟨cons_ne_nil _ _, cons_ne_nil _ _⟩, hnext⟩
          · rw [hall z mem_cons_self] at hz
            cases hz
        · exact fun hall => .inl ⟨fun w hw => by cases hw; exact hz, hall.2⟩

section Pairs

variable {β : Type} {other : β → Bool} {others : Laid β} {otherTail : List β}

theorem meets_nil_left (pieces : Nat) (ys : List β) : meets mark other pieces [] ys = [] := by
  induction pieces generalizing ys with
  | zero => exact zip_nil_left
  | succ pieces ih =>
    change ([] : List α).zip _ ++ meets mark other pieces [] _ = []
    rw [ih, zip_nil_left, nil_append]

theorem meets_nil_right (pieces : Nat) (xs : List α) : meets mark other pieces xs [] = [] := by
  induction pieces generalizing xs with
  | zero => exact zip_nil_right
  | succ pieces ih =>
    change (unmarked mark xs).zip [] ++ meets mark other pieces _ [] = []
    rw [ih, zip_nil_right, nil_append]

/-- Two layouts with the same gaps, and nowhere a block missing on both sides. -/
inductive Facing (same : α → β → Prop) : Laid α → Laid β → List α → List β → Prop
  | tail {xs : List α} {ys : List β} : List.Forall₂ same xs ys → Facing same [] [] xs ys
  | piece {g b : List α} {g' b' : List β} {l : Laid α} {l' : Laid β} {xs : List α} {ys : List β} :
    List.Forall₂ same g g' → b ≠ [] ∨ b' ≠ [] → Facing same l l' xs ys →
      Facing same ((g, b) :: l) ((g', b') :: l') xs ys

theorem Facing.mono {same same' : α → β → Prop} (h : ∀ x y, same x y → same' x y)
    (hfacing : Facing same laid others tail otherTail) :
    Facing same' laid others tail otherTail := by
  induction hfacing with
  | tail hsame => exact .tail (hsame.imp h)
  | piece hgaps hblocks _ ih => exact .piece (hgaps.imp h) hblocks ih

theorem zip_same {same : α → β → Prop} {xs : List α} {ys : List β}
    (h : List.Forall₂ same xs ys) (more : List α) (more' : List β)
    (hone : more = [] ∨ more' = []) : ∀ p ∈ (xs ++ more).zip (ys ++ more'), same p.1 p.2 := by
  intro p hp
  rw [zip_append h.length_eq] at hp
  obtain hp | hp := mem_append.mp hp
  · exact (forall₂_iff_zip.mp h).2 hp
  · obtain rfl | rfl := hone <;> simp at hp

/-- Behind a gap, the walk stands at the mark of the block, if there is one. -/
theorem unmarked_piece (h : Marked mark ((gap, block) :: laid) tail) :
    ∃ more, unmarked mark (flat ((gap, block) :: laid) tail) = gap ++ more ∧
      (block ≠ [] → more = []) := by
  obtain ⟨hgap, hblock⟩ := h.1 _ mem_cons_self
  rw [flat, append_assoc, unmarked_gap hgap]
  exact ⟨_, rfl, fun hne => unmarked_block hblock hne⟩

theorem meets_same {same : α → β → Prop} (hsame : Facing same laid others tail otherTail)
    (h : Marked mark laid tail) (hother : Marked other others otherTail)
    (hstep : InStep mark laid tail) (hstep' : InStep other others otherTail) :
    ∀ p ∈ meets mark other laid.length (flat laid tail) (flat others otherTail), same p.1 p.2 := by
  induction hsame with
  | tail hsame =>
    intro p hp
    refine zip_same hsame [] [] (.inl rfl) p ?_
    rw [append_nil, append_nil]
    exact hp
  | @piece g b g' b' l l' xs ys hgaps hblocks hsame ih =>
    obtain ⟨more, hseg, hmore⟩ := unmarked_piece h
    obtain ⟨more', hseg', hmore'⟩ := unmarked_piece hother
    intro p hp
    rw [length_cons, meets, hseg, hseg'] at hp
    obtain hp | hp := mem_append.mp hp
    · exact zip_same hgaps more more' (hblocks.imp hmore hmore') p hp
    obtain ⟨hrest, hnext⟩ | hrest := advance_inStep h hstep
    · obtain ⟨hrest', hnext'⟩ | hrest' := advance_inStep hother hstep'
      · rw [hrest, hrest'] at hp
        exact ih h.tail_marked hother.tail_marked hnext hnext' p hp
      · rw [hrest', meets_nil_right] at hp
        cases hp
    · rw [hrest, meets_nil_left] at hp
      cases hp

end Pairs

end Bbr.Lib

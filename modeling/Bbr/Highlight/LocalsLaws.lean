import Bbr.Highlight.Locals

/-!
# The scope stack in closed form

A scope is kept as long as every capture starts at or before the end of it or of a scope read since. The
stack holds the kept scopes, and each of them owns the definitions read while no later one was kept.
-/
namespace Bbr.Highlight.Locals

open List

/-- A scope that reaches some place is kept up to another place. -/
def Kept : Nat → List Capture → Nat → Prop
  | reach, [], place => place ≤ reach
  | reach, capture :: captures, place =>
    capture.start ≤ reach ∧
      Kept (if capture.kind = .scope then max reach capture.stop else reach) captures place

instance decidableKept : (reach : Nat) → (captures : List Capture) → (place : Nat) →
    Decidable (Kept reach captures place)
  | reach, [], place => inferInstanceAs (Decidable (place ≤ reach))
  | _, _ :: captures, place =>
    have := fun reach => decidableKept reach captures place
    inferInstanceAs (Decidable (_ ∧ _))

/-- The scopes that are kept up to a place, the last read first, with the captures behind each. -/
def held : List Capture → Nat → List (Capture × List Capture)
  | [], _ => []
  | capture :: captures, place =>
    held captures place ++
      if capture.kind = .scope ∧ Kept capture.stop captures place then [(capture, captures)] else []

section Kept

variable {reach place later : Nat} {c : Capture} {captures : List Capture}

theorem kept_append (h : c.start ≤ place) : Kept reach (captures ++ [c]) place ↔
    if c.kind = .scope ∧ place ≤ c.stop then Kept reach captures c.start
    else Kept reach captures place := by
  induction captures generalizing reach with
  | nil =>
    simp only [nil_append, Kept]
    by_cases hscope : c.kind = .scope
    · simp only [hscope, true_and, if_true]
      split <;> omega
    · simp only [hscope, false_and, if_false]
      omega
  | cons a captures ih =>
    simp only [cons_append, Kept, ih]
    split <;> rfl

/-- A scope is kept further on if it or one behind it ends there or later. -/
theorem kept_iff (hle : place ≤ later) : Kept reach captures later ↔ Kept reach captures place ∧
    (later ≤ reach ∨ ∃ c ∈ captures, c.kind = .scope ∧ later ≤ c.stop) := by
  induction captures generalizing reach with
  | nil =>
    simp only [Kept, not_mem_nil, false_and, exists_false, or_false]
    omega
  | cons c captures ih =>
    simp only [Kept, ih, exists_mem_cons_iff, and_assoc]
    refine and_congr_right (fun _ => and_congr_right (fun _ => ?_))
    by_cases hscope : c.kind = .scope
    · have hmax : later ≤ max reach c.stop ↔ later ≤ reach ∨ later ≤ c.stop := by omega
      simp only [hscope, if_true, true_and, hmax, or_assoc]
    · simp only [hscope, if_false, false_and, false_or]

theorem kept_of_le (h : ∀ c ∈ captures, c.start ≤ place) (hle : place ≤ reach) :
    Kept reach captures place := by
  induction captures generalizing reach with
  | nil => exact hle
  | cons c captures ih =>
    obtain ⟨hc, hrest⟩ := forall_mem_cons.mp h
    refine ⟨Nat.le_trans hc hle, ih hrest ?_⟩
    split <;> omega

theorem held_append (h : c.start ≤ place) : held (captures ++ [c]) place =
    if c.kind = .scope ∧ place ≤ c.stop then
      (c, []) :: (held captures c.start).map (fun x => (x.1, x.2 ++ [c]))
    else (held captures place).map (fun x => (x.1, x.2 ++ [c])) := by
  induction captures with
  | nil =>
    congr
  | cons a captures ih =>
    rw [cons_append, held, ih]
    simp only [kept_append h]
    split
    · simp only [held, map_append, cons_append]
      split <;> rfl
    · simp only [held, map_append]
      split <;> rfl

/-- Some scope is kept exactly when one ends at the place or later. -/
theorem held_ne_nil (h : ∀ c ∈ captures, c.start ≤ place) :
    held captures place ≠ [] ↔ ∃ c ∈ captures, c.kind = .scope ∧ place ≤ c.stop := by
  induction captures with
  | nil => simp [held]
  | cons a captures ih =>
    obtain ⟨-, hrest⟩ := forall_mem_cons.mp h
    rw [held, ne_eq, append_eq_nil_iff, not_and_or, ← ne_eq, ih hrest, exists_mem_cons_iff]
    constructor
    · rintro (hbehind | hkept)
      · exact .inr hbehind
      · by_cases ha : a.kind = .scope ∧ Kept a.stop captures place
        · exact ((kept_iff (Nat.le_refl place)).mp ha.2).2.imp (fun hle => ⟨ha.1, hle⟩) id
        · simp [ha] at hkept
    · rintro (⟨hscope, hle⟩ | hbehind)
      · exact .inr (by simp [hscope, kept_of_le hrest hle])
      · exact .inl hbehind

theorem held_later (h : ∀ c ∈ captures, c.start ≤ place) (hle : place ≤ later) :
    (held captures place).dropWhile (fun x => decide (x.1.stop < later)) = held captures later := by
  induction captures with
  | nil => rfl
  | cons a captures ih =>
    obtain ⟨-, hrest⟩ := List.forall_mem_cons.mp h
    have hlater : ∀ c ∈ captures, c.start ≤ later := fun c hc => Nat.le_trans (hrest c hc) hle
    rw [held, held, List.dropWhile_append, ih hrest]
    by_cases hheld : held captures later = []
    · have hnone : ¬∃ c ∈ captures, c.kind = .scope ∧ later ≤ c.stop :=
        fun hex => (held_ne_nil hlater).mpr hex hheld
      simp only [kept_iff hle, hnone, or_false, hheld, List.isEmpty_nil, if_true, List.nil_append]
      by_cases ha : a.kind = .scope ∧ Kept a.stop captures place
      · by_cases hstop : later ≤ a.stop
        · simp [ha, hstop]
        · simp [ha, hstop, Nat.lt_of_not_le hstop]
      · simp [ha, ← and_assoc]
    · have hsome := (held_ne_nil hlater).mp hheld
      simp only [kept_iff hle, hsome, or_true, and_true, List.isEmpty_iff, hheld, if_false]

/-- The scope that is held is one of the captures, with those behind it. -/
theorem mem_held {x : Capture × List Capture} : x ∈ held captures place ↔
    ∃ before, captures = before ++ x.1 :: x.2 ∧ x.1.kind = .scope ∧ Kept x.1.stop x.2 place := by
  induction captures with
  | nil => simp [held]
  | cons a captures ih =>
    rw [held, mem_append, ih]
    constructor
    · rintro (⟨before, hsplit, hkept⟩ | hx)
      · exact ⟨a :: before, congrArg (a :: ·) hsplit, hkept⟩
      · by_cases ha : a.kind = .scope ∧ Kept a.stop captures place
        · rw [if_pos ha, mem_singleton] at hx
          subst hx
          exact ⟨[], rfl, ha⟩
        · simp [ha] at hx
    · rintro ⟨before, hsplit, hkept⟩
      cases before with
      | nil =>
        obtain ⟨rfl, rfl⟩ := cons.inj hsplit
        exact .inr (by rw [if_pos hkept]; exact mem_singleton_self _)
      | cons b before =>
        obtain ⟨-, hsplit⟩ := cons.inj hsplit
        exact .inl ⟨before, hsplit, hkept⟩

theorem held_head (h : held captures place ≠ []) : ∃ before s behind, captures = before ++ s :: behind ∧
    s.kind = .scope ∧ Kept s.stop behind place ∧ held behind place = [] := by
  induction captures with
  | nil => exact absurd rfl h
  | cons a captures ih =>
    by_cases hbehind : held captures place = []
    · by_cases ha : a.kind = .scope ∧ Kept a.stop captures place
      · exact ⟨[], a, captures, rfl, ha.1, ha.2, hbehind⟩
      · simp [held, hbehind, ha] at h
    · obtain ⟨before, s, behind, hsplit, hrest⟩ := ih hbehind
      exact ⟨a :: before, s, behind, congrArg (a :: ·) hsplit, hrest⟩

end Kept

/-- The definition that a capture makes. -/
def Capture.definition (content : Bytes) (capture : Capture) : Definition :=
  { name := capture.text content, stop := capture.stop }

/-- The definitions behind a scope while no later one is kept. -/
def ownedFrom (content : Bytes) (before : List Capture) : List Capture → List Definition
  | [] => []
  | c :: captures =>
    (if c.kind = .definition ∧ held before c.start = [] then [c.definition content] else []) ++
      ownedFrom content (before ++ [c]) captures

def owned (content : Bytes) (captures : List Capture) : List Definition := ownedFrom content [] captures

def entry (content : Bytes) (x : Capture × List Capture) : Scope :=
  { stop := x.1.stop, definitions := owned content x.2 }

/-- The whole content is the outermost scope. -/
def root (content : Bytes) : Capture := { kind := .scope, start := 0, stop := content.length }

section Stack

variable {content : Bytes} {place later : Nat} {c : Capture} {captures : List Capture}

theorem ownedFrom_append (before : List Capture) : ownedFrom content before (captures ++ [c]) =
    ownedFrom content before captures ++
      if c.kind = .definition ∧ held (before ++ captures) c.start = [] then [c.definition content]
      else [] := by
  induction captures generalizing before with
  | nil => simp [ownedFrom]
  | cons a captures ih => simp [ownedFrom, ih]

theorem owned_append : owned content (captures ++ [c]) = owned content captures ++
    if c.kind = .definition ∧ held captures c.start = [] then [c.definition content] else [] :=
  ownedFrom_append []

variable {x : Definition}

theorem mem_ownedFrom (before : List Capture) :
    x ∈ ownedFrom content before captures ↔ ∃ between d behind, captures = between ++ d :: behind ∧
      d.kind = .definition ∧ held (before ++ between) d.start = [] ∧ x = d.definition content := by
  induction captures generalizing before with
  | nil => simp [ownedFrom]
  | cons a captures ih =>
    rw [ownedFrom, mem_append, ih]
    constructor
    · rintro (hx | ⟨between, d, behind, hsplit, hd, hheld, hx⟩)
      · by_cases ha : a.kind = .definition ∧ held before a.start = []
        · rw [if_pos ha, mem_singleton] at hx
          exact ⟨[], a, captures, rfl, ha.1, by simpa using ha.2, hx⟩
        · simp [ha] at hx
      · exact ⟨a :: between, d, behind, congrArg (a :: ·) hsplit, hd, by simpa using hheld, hx⟩
    · rintro ⟨between, d, behind, hsplit, hd, hheld, hx⟩
      cases between with
      | nil =>
        obtain ⟨rfl, rfl⟩ := cons.inj hsplit
        exact .inl (by rw [if_pos ⟨hd, by simpa using hheld⟩]; exact mem_singleton.mpr hx)
      | cons b between =>
        obtain ⟨rfl, hrest⟩ := cons.inj hsplit
        exact .inr ⟨between, d, behind, hrest, hd, by simpa using hheld, hx⟩

theorem mem_owned : x ∈ owned content captures ↔
    ∃ between d behind, captures = between ++ d :: behind ∧ d.kind = .definition ∧
      held between d.start = [] ∧ x = d.definition content :=
  mem_ownedFrom []

theorem popScopes_eq {scopes : List Scope} (h : ∀ last ∈ scopes.getLast?, place ≤ last.stop) :
    popScopes place scopes = scopes.dropWhile (fun s => decide (s.stop < place)) := by
  induction scopes with
  | nil => rfl
  | cons top scopes ih =>
    cases scopes with
    | nil =>
      have hlast := h top rfl
      rw [popScopes]
      · exact (dropWhile_cons_of_neg (by simpa using hlast)).symm
      · simp
    | cons next scopes =>
      rw [popScopes]
      by_cases htop : top.stop < place
      · rw [if_pos htop, dropWhile_cons_of_pos (by simpa using htop)]
        exact ih (by simpa using h)
      · rw [if_neg htop, dropWhile_cons_of_neg (by simpa using htop)]

theorem define_held (hdef : c.kind = .definition) (captures : List Capture) :
    define (c.definition content) ((held captures c.start).map (entry content)) =
      (held captures c.start).map (fun x => entry content (x.1, x.2 ++ [c])) := by
  induction captures with
  | nil => rfl
  | cons a captures ih =>
    rw [held, map_append, map_append, ← ih]
    by_cases ha : a.kind = .scope ∧ Kept a.stop captures c.start
    · rw [if_pos ha]
      cases hheld : held captures c.start with
      | nil => simp [entry, define, owned_append, hdef, hheld]
      | cons x rest => simp [entry, define, owned_append, hheld]
    · rw [if_neg ha]
      simp

theorem entry_append (hdef : c.kind ≠ .definition) (x : Capture × List Capture) :
    entry content (x.1, x.2 ++ [c]) = entry content x := by
  simp [entry, owned_append, hdef]

theorem getLast?_held_root (h : ∀ c ∈ captures, c.start ≤ place) (hle : place ≤ content.length) :
    (held (root content :: captures) place).getLast? = some (root content, captures) := by
  have hkept : Kept (root content).stop captures place := kept_of_le h hle
  have hroot : (root content).kind = .scope := rfl
  rw [held, if_pos ⟨hroot, hkept⟩, getLast?_concat]

theorem popScopes_held (h : ∀ c ∈ captures, c.start ≤ place) (hle : place ≤ later)
    (hlater : later ≤ content.length) :
    popScopes later ((held (root content :: captures) place).map (entry content)) =
      (held (root content :: captures) later).map (entry content) := by
  have hall : ∀ c ∈ root content :: captures, c.start ≤ place := forall_mem_cons.mpr ⟨Nat.zero_le _, h⟩
  have hlast : ∀ last ∈ ((held (root content :: captures) place).map (entry content)).getLast?,
      later ≤ last.stop := by
    intro last hmem
    rw [getLast?_map, getLast?_held_root h (Nat.le_trans hle hlater), Option.map_some,
      Option.mem_some_iff] at hmem
    subst hmem
    exact hlater
  rw [popScopes_eq hlast, dropWhile_map, ← held_later hall hle]
  rfl

theorem step_scopes {state : State} (hscopes : state.scopes =
      (held (root content :: captures) place).map (entry content))
    (h : ∀ a ∈ captures, a.start ≤ place) (hle : place ≤ c.start) (hc : c.start ≤ c.stop)
    (hlen : c.start ≤ content.length) :
    (step content state c).scopes =
      (held (root content :: (captures ++ [c])) c.start).map (entry content) := by
  have hpop := popScopes_held h hle hlen
  rw [← cons_append, held_append (Nat.le_refl _)]
  cases hkind : c.kind with
  | scope =>
    have hentries : ∀ x, entry content (x.1, x.2 ++ [c]) = entry content x :=
      entry_append (by simp [hkind])
    simp only [step, hscopes, hpop, hkind, hc, true_and, if_true, map_cons, map_map]
    exact congrArg₂ _ rfl (map_congr_left (fun x _ => (hentries x).symm))
  | definition =>
    simp only [step, hscopes, hpop, hkind, reduceCtorEq, false_and, if_false, map_map]
    exact define_held hkind _
  | reference | other =>
    have hentries : ∀ x, entry content (x.1, x.2 ++ [c]) = entry content x :=
      entry_append (by simp [hkind])
    simp only [step, hscopes, hpop, hkind, reduceCtorEq, false_and, if_false, map_map]
    exact map_congr_left (fun x _ => (hentries x).symm)

end Stack

/-- A definition of its text that has ended is owned by a scope that is kept at the reference. -/
def Reached (content : Bytes) (before : List Capture) (reference : Capture) : Prop :=
  ∃ x ∈ held (root content :: before) reference.start, ∃ d ∈ owned content x.2,
    d.stop ≤ reference.start ∧ reference.text content = d.name

/-- The range of a definition, or of a reference that is reached. -/
def Recorded (content : Bytes) (captures : List Capture) (range : Range) : Prop :=
  (∃ d ∈ captures, d.kind = .definition ∧ d.range = range) ∨
    ∃ before r behind, captures = before ++ r :: behind ∧ r.kind = .reference ∧ r.range = range ∧
      Reached content before r

/-- The captures come in the order of their starts, inside the content. -/
structure InOrder (content : Bytes) (captures : List Capture) : Prop where
  sorted : captures.Pairwise (fun a b => a.start ≤ b.start)
  inside : ∀ c ∈ captures, c.start ≤ c.stop ∧ c.stop ≤ content.length

section Run

variable {content : Bytes} {captures : List Capture} {c : Capture} {range : Range}

theorem InOrder.init (h : InOrder content (captures ++ [c])) :
    InOrder content captures ∧ (∀ a ∈ captures, a.start ≤ c.start) ∧ c.start ≤ c.stop ∧
      c.stop ≤ content.length := by
  obtain ⟨hsorted, -, hlast⟩ := pairwise_append.mp h.sorted
  exact ⟨⟨hsorted, fun a ha => h.inside a (by simp [ha])⟩, fun a ha => hlast a ha c (by simp),
    h.inside c (by simp)⟩

theorem mem_appendUniqueRange {ranges : List Range} {new : Range} :
    range ∈ appendUniqueRange ranges new ↔ range ∈ ranges ∨ range = new := by
  rw [appendUniqueRange]
  split
  · next h => exact ⟨.inl, fun hr => hr.elim id (fun heq => heq ▸ h)⟩
  · simp

theorem recorded_append : Recorded content (captures ++ [c]) range ↔
    Recorded content captures range ∨ c.range = range ∧
      (c.kind = .definition ∨ c.kind = .reference ∧ Reached content captures c) := by
  constructor
  · rintro (⟨d, hd, hkind, hrange⟩ | ⟨before, r, behind, hsplit, hkind, hrange, hreached⟩)
    · cases mem_append.mp hd with
      | inl hd => exact .inl (.inl ⟨d, hd, hkind, hrange⟩)
      | inr hd =>
        obtain rfl := mem_singleton.mp hd
        exact .inr ⟨hrange, .inl hkind⟩
    · rcases eq_nil_or_concat behind with rfl | ⟨behind, last, rfl⟩
      · obtain ⟨rfl, hlast⟩ := append_inj' hsplit rfl
        obtain rfl := singleton_inj.mp hlast
        exact .inr ⟨hrange, .inr ⟨hkind, hreached⟩⟩
      · rw [concat_eq_append, ← cons_append, ← append_assoc] at hsplit
        obtain ⟨rfl, -⟩ := append_inj' hsplit rfl
        exact .inl (.inr ⟨before, r, behind, rfl, hkind, hrange, hreached⟩)
  · rintro ((⟨d, hd, hkind, hrange⟩ | ⟨before, r, behind, rfl, hr⟩) | ⟨hrange, hkind | ⟨hkind, hreached⟩⟩)
    · exact .inl ⟨d, mem_append_left _ hd, hkind, hrange⟩
    · exact .inr ⟨before, r, behind ++ [c], by simp, hr⟩
    · exact .inl ⟨c, by simp, hkind, hrange⟩
    · exact .inr ⟨captures, c, [], rfl, hkind, hrange, hreached⟩

theorem reached_iff : Reached content captures c ↔
    ((held (root content :: captures) c.start).map (entry content)).any
      (fun scope => scope.definitions.any (binds c.start (c.text content))) = true := by
  simp [Reached, entry, binds]

theorem run_scopes (h : InOrder content captures) : ∃ place, (∀ a ∈ captures, a.start ≤ place) ∧
      (∀ later, (∀ a ∈ captures, a.start ≤ later) → place ≤ later) ∧
        (captures.foldl (step content) { scopes := [{ stop := content.length }] }).scopes =
          (held (root content :: captures) place).map (entry content) := by
  induction captures using reverseRecOn with
  | nil => exact ⟨0, by simp, fun _ _ => Nat.zero_le _, by simp [held, Kept, root, entry, owned, ownedFrom]⟩
  | append_singleton captures c ih =>
    obtain ⟨hinit, hstarts, hc, hlen⟩ := h.init
    obtain ⟨place, hplace, hleast, hscopes⟩ := ih hinit
    refine ⟨c.start, ?_, fun later hlater => hlater c (by simp), ?_⟩
    · intro a ha
      rcases mem_append.mp ha with ha | ha
      · exact hstarts a ha
      · exact mem_singleton.mp ha ▸ Nat.le_refl _
    · rw [foldl_concat]
      exact step_scopes hscopes hplace (hleast c.start hstarts) hc (Nat.le_trans hc hlen)

theorem run_ranges (h : InOrder content captures) :
    range ∈ collectPrepared content captures ↔ Recorded content captures range := by
  induction captures using reverseRecOn with
  | nil => simp [collectPrepared, Recorded]
  | append_singleton captures c ih =>
    obtain ⟨hinit, hstarts, hc, hlen⟩ := h.init
    obtain ⟨place, hplace, hleast, hscopes⟩ := run_scopes hinit
    have hpop := popScopes_held hplace (hleast c.start hstarts) (Nat.le_trans hc hlen)
    rw [← hscopes] at hpop
    rw [recorded_append, ← ih hinit, collectPrepared, collectPrepared, foldl_concat, reached_iff,
      ← hpop, eq_comm (a := c.range)]
    cases hkind : c.kind with
    | scope | other => simp [step, hkind]
    | definition => simp [step, hkind, mem_appendUniqueRange]
    | reference =>
      simp only [step, hkind, reduceCtorEq, false_or, true_and]
      split
      · next hany => simp [mem_appendUniqueRange, hany]
      · next hany => simp [hany]

end Run

end Bbr.Highlight.Locals

import Bbr.Lib.Chains

/-!
# Orders that put parents first

Values with at most one parent each are appended to an order once the parent stands in it. Passes over all
values admit everything but the values whose chain of parents runs into a cycle, and values without a
parent keep the order in which the passes meet them.
-/
namespace Bbr.Lib

open List

variable {α : Type} [DecidableEq α] {up : α → Option α} {a b : α} {ids order : List α}

/-- The parent stands in the order, if there is one. -/
def ready (up : α → Option α) (order : List α) (a : α) : Bool :=
  (up a).all (fun b => decide (b ∈ order))

def admitOne (up : α → Option α) (order : List α) (a : α) : List α :=
  if a ∈ order then order else if ready up order a then order ++ [a] else order

def admitAll (up : α → Option α) (ids order : List α) : List α := ids.foldl (admitOne up) order

@[simp] theorem admitAll_nil (up : α → Option α) (order : List α) : admitAll up [] order = order := rfl

@[simp] theorem admitAll_cons (up : α → Option α) (a : α) (ids order : List α) :
    admitAll up (a :: ids) order = admitAll up ids (admitOne up order a) := rfl

theorem ready_iff : ready up order a = true ↔ ∀ b, up a = some b → b ∈ order := by
  unfold ready
  cases up a <;> simp

theorem admitOne_cases (up : α → Option α) (order : List α) (a : α) :
    (admitOne up order a = order ∧ (a ∈ order ∨ ready up order a = false)) ∨
      (admitOne up order a = order ++ [a] ∧ a ∉ order ∧ ready up order a = true) := by
  unfold admitOne
  by_cases ha : a ∈ order
  · exact .inl ⟨if_pos ha, .inl ha⟩
  rw [if_neg ha]
  cases hr : ready up order a with
  | true => exact .inr ⟨rfl, ha, rfl⟩
  | false => exact .inl ⟨rfl, .inr rfl⟩

theorem admitOne_extends (up : α → Option α) (order : List α) (a : α) : order <+: admitOne up order a := by
  obtain ⟨h, -⟩ | ⟨h, -⟩ := admitOne_cases up order a
  · rw [h]
  · rw [h]
    exact prefix_append order [a]

theorem admitAll_extends (up : α → Option α) (ids order : List α) :
    order <+: admitAll up ids order := by
  induction ids generalizing order with
  | nil => exact prefix_rfl
  | cons a ids ih => exact (admitOne_extends up order a).trans (ih _)

theorem admitOne_nodup (h : order.Nodup) (a : α) : (admitOne up order a).Nodup := by
  obtain ⟨he, -⟩ | ⟨he, ha, -⟩ := admitOne_cases up order a
  · rwa [he]
  · rw [he, ← concat_eq_append, nodup_concat]
    exact ⟨ha, h⟩

/-- Every parent in the order stands before its child, and no child stands there without it. -/
def ParentFirst (up : α → Option α) (order : List α) : Prop :=
  ∀ a ∈ order, ∀ b, up a = some b → order.idxOf b < order.idxOf a

theorem ParentFirst.mem (h : ParentFirst up order) (ha : a ∈ order) (hb : up a = some b) :
    b ∈ order := by
  have hlt := h a ha b hb
  have hlen := idxOf_lt_length_iff.mpr ha
  exact idxOf_lt_length_iff.mp (Nat.lt_trans hlt hlen)

theorem ParentFirst.nil (up : α → Option α) : ParentFirst up [] := forall_mem_nil _

theorem ParentFirst.append (h : ParentFirst up order) (rest : List α) :
    ∀ a ∈ order, ∀ b, up a = some b → (order ++ rest).idxOf b < (order ++ rest).idxOf a := by
  intro a ha b hb
  rw [idxOf_append_of_mem ha, idxOf_append_of_mem (h.mem ha hb)]
  exact h a ha b hb

theorem ParentFirst.admitOne (h : ParentFirst up order) (a : α) : ParentFirst up (admitOne up order a) := by
  obtain ⟨he, -⟩ | ⟨he, ha, hr⟩ := admitOne_cases up order a
  · rwa [he]
  rw [he]
  intro c hc b hb
  by_cases hco : c ∈ order
  · exact h.append [a] c hco b hb
  obtain rfl : c = a := by simpa [hco] using hc
  have hbo := ready_iff.mp hr b hb
  have hlt := idxOf_lt_length_iff.mpr hbo
  rw [idxOf_append_of_mem hbo, idxOf_append_of_notMem hco]
  omega

/-- A pass that admits nothing leaves only values whose parent is left too. -/
theorem left_of_admitAll (h : admitAll up ids order = order) (ha : a ∈ ids) (hno : a ∉ order) :
    ∃ b, up a = some b ∧ b ∉ order := by
  induction ids with
  | nil => exact absurd ha not_mem_nil
  | cons c ids ih =>
    rw [admitAll_cons] at h
    have hfirst : Lib.admitOne up order c = order := by
      have hle := (admitAll_extends up ids (Lib.admitOne up order c)).length_le
      rw [h] at hle
      exact ((admitOne_extends up order c).eq_of_length_le hle).symm
    rw [hfirst] at h
    obtain rfl | ha := mem_cons.mp ha
    · obtain ⟨-, hmem | hr⟩ | ⟨he, -⟩ := admitOne_cases up order a
      · exact absurd hmem hno
      · unfold ready at hr
        cases hb : up a with
        | none => simp [hb] at hr
        | some b => exact ⟨b, rfl, by simpa [hb] using hr⟩
      · rw [he] at hfirst
        simp at hfirst
    · exact ih h ha

theorem ParentFirst.ascend (h : ParentFirst up order) {n : Nat} (ha : a ∈ order)
    (hn : ascend up n a = some b) : b ∈ order ∧ order.idxOf b + n ≤ order.idxOf a := by
  induction n generalizing a with
  | zero =>
    obtain rfl := Option.some.inj hn
    exact ⟨ha, Nat.le_refl _⟩
  | succ n ih =>
    obtain ⟨c, hc, hrest⟩ := Option.bind_eq_some_iff.mp hn
    obtain ⟨hb, hle⟩ := ih (h.mem ha hc) hrest
    have hlt := h a ha c hc
    exact ⟨hb, by omega⟩

theorem ParentFirst.not_meetsCycle (h : ParentFirst up order) (ha : a ∈ order) : ¬ MeetsCycle up a := by
  rintro ⟨c, ⟨m, hm⟩, n, hn⟩
  have hc := (h.ascend ha hm).1
  have hle := (h.ascend hc hn).2
  omega

/-- What the passes leave are exactly the values whose chain runs into a cycle. -/
theorem left_iff_meetsCycle (h : ParentFirst up order) (hfix : admitAll up ids order = order)
    (hup : ∀ a b, up a = some b → b ∈ ids) (ha : a ∈ ids) : a ∉ order ↔ MeetsCycle up a := by
  constructor
  · intro hno
    apply meetsCycle_of_endless ids
    have hleft (n : Nat) : ∃ b ∈ ids, b ∉ order ∧ Lib.ascend up n a = some b := by
      induction n with
      | zero => exact ⟨a, ha, hno, rfl⟩
      | succ n ih =>
        obtain ⟨b, hb, hbo, hn⟩ := ih
        obtain ⟨c, hc, hco⟩ := left_of_admitAll hfix hb hbo
        refine ⟨c, hup b c hc, hco, ?_⟩
        rw [ascend_add, hn]
        simp [Lib.ascend, hc]
    intro n
    obtain ⟨b, hb, -, hn⟩ := hleft n
    exact ⟨b, hb, hn⟩
  · intro hm hao
    exact h.not_meetsCycle hao hm

def isRoot (up : α → Option α) (a : α) : Bool := (up a).isNone

theorem ready_of_isRoot (h : isRoot up a = true) (order : List α) : ready up order a = true := by
  unfold isRoot at h
  rw [Option.isNone_iff_eq_none] at h
  simp [ready, h]

/-- The first pass admits all of them, in the order in which it meets them. -/
theorem filter_admitAll_new (hids : ids.Nodup) (hnew : ∀ a ∈ ids, a ∉ order) :
    (admitAll up ids order).filter (isRoot up) =
      order.filter (isRoot up) ++ ids.filter (isRoot up) := by
  induction ids generalizing order with
  | nil => simp
  | cons a ids ih =>
    obtain ⟨ha, hids⟩ := nodup_cons.mp hids
    have hao := hnew a mem_cons_self
    have hrest {order' : List α} (h : ∀ b ∈ order', b ∈ order ∨ b = a) : ∀ b ∈ ids, b ∉ order' := by
      intro b hb hbo
      obtain hbo | rfl := h b hbo
      · exact hnew b (mem_cons_of_mem _ hb) hbo
      · exact ha hb
    rw [admitAll_cons]
    obtain ⟨he, hmem | hr⟩ | ⟨he, -⟩ := admitOne_cases up order a
    · exact absurd hmem hao
    · have hroot : isRoot up a = false := by
        by_contra hroot
        rw [ready_of_isRoot (by simpa using hroot)] at hr
        cases hr
      rw [he, ih hids (hrest (fun b hb => .inl hb)), filter_cons_of_neg (by simp [hroot])]
    · rw [he, ih hids (hrest (fun b hb => by simpa using hb)), filter_append, append_assoc]
      congr 1
      by_cases hroot : isRoot up a = true
      · simp [hroot]
      · simp [hroot]

theorem filter_admitAll_old (hall : ∀ a ∈ ids, isRoot up a = true → a ∈ order) :
    (admitAll up ids order).filter (isRoot up) = order.filter (isRoot up) := by
  induction ids generalizing order with
  | nil => rfl
  | cons a ids ih =>
    have hstep : (Lib.admitOne up order a).filter (isRoot up) = order.filter (isRoot up) := by
      obtain ⟨he, -⟩ | ⟨he, hao, -⟩ := admitOne_cases up order a
      · rw [he]
      have hroot : isRoot up a = false := by
        by_contra hroot
        exact hao (hall a mem_cons_self (by simpa using hroot))
      rw [he, filter_append]
      simp [hroot]
    rw [admitAll_cons, ih, hstep]
    intro b hb hroot
    exact (admitOne_extends up order a).subset (hall b (mem_cons_of_mem _ hb) hroot)

end Bbr.Lib

import Mathlib.Data.List.Basic

/-!
# Finite labelled runs

A step relation carries a label on every transition; a run is the list of its labels between two states.
The rules are the ones an invariance, an "once ... never again", a counting and a termination argument
need, each proved once from a hypothesis about a single step.
-/
namespace Bbr.Lib

variable {σ ε : Type}

/-- `Run step s es t`: the labels `es`, in order, lead from `s` to `t`. -/
inductive Run (step : σ → ε → σ → Prop) : σ → List ε → σ → Prop where
  | nil (s : σ) : Run step s [] s
  | cons {s t u : σ} {e : ε} {es : List ε} (head : step s e t) (tail : Run step t es u) :
      Run step s (e :: es) u

namespace Run

variable {step : σ → ε → σ → Prop} {s t u : σ} {e : ε} {es fs : List ε}

theorem single (h : step s e t) : Run step s [e] t := .cons h (.nil t)

@[simp] theorem nil_iff : Run step s [] t ↔ s = t := by
  constructor
  · intro h; cases h; rfl
  · rintro rfl; exact .nil _

@[simp] theorem cons_iff : Run step s (e :: es) u ↔ ∃ t, step s e t ∧ Run step t es u := by
  constructor
  · intro h; cases h with | cons head tail => exact ⟨_, head, tail⟩
  · rintro ⟨t, head, tail⟩; exact .cons head tail

theorem append (h : Run step s es t) (h' : Run step t fs u) : Run step s (es ++ fs) u := by
  induction h with
  | nil => exact h'
  | cons head _ ih => exact .cons head (ih h')

/-- A run over a concatenation passes through an intermediate state. -/
theorem append_iff : Run step s (es ++ fs) u ↔ ∃ t, Run step s es t ∧ Run step t fs u := by
  constructor
  · intro h
    induction es generalizing s with
    | nil => exact ⟨s, .nil s, h⟩
    | cons e es ih =>
      obtain ⟨m, hm, htail⟩ := cons_iff.mp h
      obtain ⟨t, ht, hu⟩ := ih htail
      exact ⟨t, .cons hm ht, hu⟩
  · rintro ⟨t, h, h'⟩; exact h.append h'

section

variable (h : Run step s es t)
include h

theorem mono {step' : σ → ε → σ → Prop} (hstep : ∀ {s e t}, step s e t → step' s e t) :
    Run step' s es t := by
  induction h with
  | nil => exact .nil _
  | cons head _ ih => exact .cons (hstep head) ih

/-- Invariance relative to a set of allowed labels: what every allowed step keeps, a run of
allowed labels keeps. -/
theorem preserves (inv : σ → Prop) (allowed : ε → Prop)
    (hstep : ∀ {s e t}, step s e t → allowed e → inv s → inv t) (hall : ∀ e ∈ es, allowed e)
    (hs : inv s) : inv t := by
  induction h with
  | nil => exact hs
  | cons head _ ih =>
    exact ih (fun e he => hall e (List.mem_cons_of_mem _ he))
      (hstep head (hall _ List.mem_cons_self) hs)

theorem invariant (inv : σ → Prop) (hstep : ∀ {s e t}, step s e t → inv s → inv t) (hs : inv s) :
    inv t :=
  h.preserves inv (fun _ => True) (fun hst _ => hstep hst) (fun _ _ => trivial) hs

/-- Invariance with history: the invariant may speak about the labels so far. -/
theorem recorded (inv : List ε → σ → Prop)
    (hstep : ∀ {fs s e t}, step s e t → inv fs s → inv (fs ++ [e]) t) (hs : inv [] s) :
    inv es t := by
  have hpre : ∀ {s es t}, Run step s es t → ∀ fs, inv fs s → inv (fs ++ es) t := by
    intro s es t h
    induction h with
    | nil => intro fs hs; simpa using hs
    | @cons s m u e es head _ ih =>
      intro fs hs
      have := ih (fs ++ [e]) (hstep head hs)
      simpa using this
  simpa using hpre h [] hs

/-- Where the invariant also restricts the label of every step it allows, no label of the run
escapes the restriction. -/
theorem forall_labels (inv : σ → Prop) (ok : ε → Prop)
    (hstep : ∀ {s e t}, step s e t → inv s → ok e ∧ inv t) (hs : inv s) : ∀ e ∈ es, ok e := by
  induction h with
  | nil => intro e he; cases he
  | cons head _ ih =>
    obtain ⟨hok, hinv⟩ := hstep head hs
    intro e he
    rcases List.mem_cons.mp he with rfl | he
    · exact hok
    · exact ih hinv e he

/-- A potential that every step keeps, and every step with a counted label lowers, bounds how often
such labels occur. -/
theorem countP_le (inv : σ → Prop) (potential : σ → Nat) (p : ε → Bool)
    (hstep : ∀ {s e t}, step s e t → inv s →
      inv t ∧ (if p e then 1 else 0) + potential t ≤ potential s) (hs : inv s) :
    es.countP p + potential t ≤ potential s := by
  induction h with
  | nil => simp
  | @cons s t u e es head _ ih =>
    obtain ⟨hinv, hle⟩ := hstep head hs
    have htail := ih hinv
    rw [List.countP_cons]
    omega

theorem length_le (inv : σ → Prop) (measure : σ → Nat)
    (hstep : ∀ {s e t}, step s e t → inv s → inv t ∧ measure t < measure s) (hs : inv s) :
    es.length + measure t ≤ measure s := by
  have hcount := h.countP_le inv measure (fun _ => true)
    (fun hst hi => ⟨(hstep hst hi).1, by have := (hstep hst hi).2; simp only [if_true]; omega⟩) hs
  simpa using hcount

end

/-- A system that can always move until it is final, and whose moves lower a measure, reaches a
final state within the measure of its start, along moves of the caller's choice. -/
theorem reaches_final (inv final : σ → Prop) (measure : σ → Nat) (chosen : Nat → ε → Prop)
    (hstep : ∀ {s e t}, step s e t → inv s → inv t ∧ measure t < measure s)
    (hmove : ∀ s n, inv s → ¬ final s → ∃ e t, chosen n e ∧ step s e t)
    (n : Nat) (hs : inv s) :
    ∃ es t, Run step s es t ∧ es.length ≤ measure s ∧ final t ∧
      ∀ k (hk : k < es.length), chosen (n + k) (es.get ⟨k, hk⟩) := by
  induction hm : measure s using Nat.strongRecOn generalizing s n with
  | ind m ih =>
    by_cases hf : final s
    · exact ⟨[], s, .nil s, Nat.zero_le _, hf, fun k hk => absurd hk (Nat.not_lt_zero k)⟩
    obtain ⟨e, t, hc, hst⟩ := hmove s n hs hf
    obtain ⟨hinv, hlt⟩ := hstep hst hs
    obtain ⟨es, u, hrun, hlen, hfin, hch⟩ := ih (measure t) (by omega) (n + 1) hinv rfl
    refine ⟨e :: es, u, .cons hst hrun, by simp only [List.length_cons]; omega, hfin, ?_⟩
    intro k hk
    cases k with
    | zero => exact hc
    | succ k =>
      have hk' : k < es.length := by simpa using hk
      have h := hch k hk'
      rw [show n + 1 + k = n + (k + 1) by omega] at h
      exact h

end Run

end Bbr.Lib

import Mathlib.Data.Int.ConditionallyCompleteOrder
import Mathlib.Data.List.Induction
import Mathlib.Tactic.Linarith
import Mathlib.Tactic.Ring

/-!
# Best alignments

A needle is placed in a text: each of its items on a later place than the one before. Neighbouring
places earn a fixed reward; after a gap the place itself and the length of the gap decide. Two tables,
filled row by row, hold the best score with the last item on a place, and with it on the place or
before it, less the gap up to it. They bound every alignment.
-/
namespace Bbr.Lib

/-- The places that an item fits, and what placing it there is worth. -/
structure Scoring where
  fits : Nat → Nat → Prop
  first : Nat → Int
  bonus : Nat → Int
  gap : Int
  streak : Int

namespace Scoring

variable (S : Scoring)

/-- What one item adds after the one before it. -/
def join (p c : Nat) : Int :=
  if c = p + 1 then S.streak else S.bonus c + ((c - p - 1 : Nat) : Int) * S.gap

/-- The first `q + 1` items on these places, the last of them on `c`, with this score. -/
inductive Aligned : List Nat → Nat → Nat → Int → Prop where
  | first {c : Nat} (fits : S.fits 0 c) : Aligned [c] 0 c (S.first c)
  | next {places : List Nat} {q p c : Nat} {v : Int} (before : Aligned places q p v) (later : p < c)
      (fits : S.fits (q + 1) c) : Aligned (places ++ [c]) (q + 1) c (v + S.join p c)

/-- Two tables that are filled from the left and from the row above. -/
structure Fills (m n : Nat) (trailing : Int) (exact best : Nat → Nat → WithBot Int) : Prop where
  first : ∀ c < n, 0 < m → (S.fits 0 c → exact 0 c = S.first c) ∧ (¬ S.fits 0 c → exact 0 c = ⊥)
  next : ∀ q c, q + 1 < m → c + 1 < n →
    (S.fits (q + 1) (c + 1) → exact (q + 1) (c + 1) =
      max (best q c + (S.bonus (c + 1) : Int)) (exact q c + (S.streak : Int))) ∧
    (¬ S.fits (q + 1) (c + 1) → exact (q + 1) (c + 1) = ⊥)
  edge : ∀ q, q + 1 < m → exact (q + 1) 0 = ⊥
  left : ∀ q < m, 0 < n → best q 0 = exact q 0
  along : ∀ q c, q < m → c + 1 < n →
    best q (c + 1) = max (exact q (c + 1)) (best q c +
      ((if q + 1 = m then trailing else S.gap : Int) : WithBot Int))

end Scoring

namespace Scoring

variable {S : Scoring} {m n q c p : Nat} {trailing v : Int} {places : List Nat}
  {exact best : Nat → Nat → WithBot Int}

/-- The price of one place of gap after the last item of a row. -/
def slope (S : Scoring) (m : Nat) (trailing : Int) (q : Nat) : Int :=
  if q + 1 = m then trailing else S.gap

section

variable (h : S.Fills m n trailing exact best)
include h

theorem Fills.exact_le_best (hq : q < m) (hc : c < n) : exact q c ≤ best q c := by
  cases c with
  | zero => rw [h.left q hq hc]
  | succ c =>
    rw [h.along q c hq hc]
    exact le_max_left _ _

theorem Fills.best_falls (hq : q < m) (d : Nat) (hc : p + d < n) :
    best q p + ((d : Int) * S.slope m trailing q : Int) ≤ best q (p + d) := by
  induction d with
  | zero => simp
  | succ d ih =>
    have hstep : best q (p + d) + (S.slope m trailing q : Int) ≤ best q (p + d + 1) := by
      rw [h.along q (p + d) hq hc]
      exact le_max_right _ _
    have hsum : (((d + 1 : Nat) : Int) * S.slope m trailing q : Int) =
        (d : Int) * S.slope m trailing q + S.slope m trailing q := by
      push_cast
      ring
    rw [hsum, WithBot.coe_add, ← add_assoc]
    exact le_trans (add_le_add_left (ih (by omega)) _) hstep

theorem Aligned.le_exact (ha : S.Aligned places q c v) (hq : q < m) (hc : c < n) :
    (v : WithBot Int) ≤ exact q c := by
  induction ha with
  | first fits => rw [((h.first _ hc (by omega)).1 fits)]
  | @next places q p c v before later fits ih =>
    have ih' : (v : WithBot Int) ≤ exact q p := ih (by omega) (by omega)
    obtain ⟨c, rfl⟩ : ∃ c', c = c' + 1 := ⟨c - 1, by omega⟩
    rw [(h.next q c hq hc).1 fits, WithBot.coe_add]
    unfold join
    split
    · next hnear =>
      obtain rfl : c = p := by omega
      exact le_trans (add_le_add_left ih' _) (le_max_right _ _)
    rename_i hfar
    refine le_trans ?_ (le_max_left _ _)
    obtain ⟨d, rfl⟩ : ∃ d, c = p + d := ⟨c - p, by omega⟩
    have hslope : S.slope m trailing q = S.gap := if_neg (by omega)
    have hfall := h.best_falls (q := q) (p := p) (by omega) d (by omega)
    have hbest := le_trans ih' (h.exact_le_best (by omega) (by omega))
    rw [hslope] at hfall
    have hgap : ((p + d + 1 - p - 1 : Nat) : Int) = d := by omega
    rw [hgap, WithBot.coe_add, add_comm (S.bonus _ : WithBot Int), ← add_assoc]
    exact add_le_add_left (le_trans (add_le_add_left hbest _) hfall) _

theorem Aligned.le_best (ha : S.Aligned places q p v) (hq : q < m) (d : Nat) (hc : p + d < n) :
    ((v + (d : Int) * S.slope m trailing q : Int) : WithBot Int) ≤ best q (p + d) := by
  rw [WithBot.coe_add]
  have hexact := le_trans (ha.le_exact h hq (by omega)) (h.exact_le_best hq (by omega))
  exact le_trans (add_le_add_left hexact _) (h.best_falls hq d hc)

/-- The last cell of a row that is as good as the row there is what the row falls from. -/
theorem Fills.falls_from (hq : q < m) (d : Nat) (hc : p + d < n)
    (hlater : ∀ e, e < d → exact q (p + e + 1) = ⊥ ∨ exact q (p + e + 1) ≠ best q (p + e + 1)) :
    best q (p + d) = best q p + ((d : Int) * S.slope m trailing q : Int) := by
  induction d with
  | zero => simp
  | succ d ih =>
    have hrow := h.along q (p + d) hq hc
    have hfall : best q (p + d + 1) = best q (p + d) + (S.slope m trailing q : Int) := by
      rcases hlater d (by omega) with hnone | hne
      · rw [hnone] at hrow
        rw [hrow]
        exact max_eq_right bot_le
      · rcases max_choice (exact q (p + d + 1)) (best q (p + d) +
          ((if q + 1 = m then trailing else S.gap : Int) : WithBot Int)) with heq | heq
        · rw [heq] at hrow
          exact absurd hrow.symm hne
        · rw [hrow, heq]
          rfl
    have hsum : (((d + 1 : Nat) : Int) * S.slope m trailing q : Int) =
        (d : Int) * S.slope m trailing q + S.slope m trailing q := by
      push_cast
      ring
    rw [show p + (d + 1) = p + d + 1 from rfl, hfall, ih (by omega) (fun e he => hlater e (by omega)),
      hsum, WithBot.coe_add, add_assoc]

/-- A row that has reached a place falls to it from a cell that is as good as the row there. -/
theorem Fills.source (hq : q < m) (hc : c < n) (hbest : best q c ≠ ⊥) : ∃ p d, c = p + d ∧
    exact q p ≠ ⊥ ∧ exact q p = best q p ∧
      best q c = exact q p + ((d : Int) * S.slope m trailing q : Int) := by
  induction c with
  | zero =>
    have heq := h.left q hq hc
    exact ⟨0, 0, rfl, heq ▸ hbest, heq.symm, by simp [heq]⟩
  | succ c ih =>
    have hrow := h.along q c hq hc
    by_cases hcell : exact q (c + 1) = best q (c + 1)
    · exact ⟨c + 1, 0, rfl, hcell ▸ hbest, hcell, by simp [hcell]⟩
    have hfall : best q (c + 1) = best q c + (S.slope m trailing q : Int) := by
      rcases max_choice (exact q (c + 1)) (best q c +
        ((if q + 1 = m then trailing else S.gap : Int) : WithBot Int)) with heq | heq
      · rw [heq] at hrow
        exact absurd hrow.symm hcell
      · exact hrow.trans heq
    have hprev : best q c ≠ ⊥ := by
      intro hnone
      rw [hfall, hnone, WithBot.bot_add] at hbest
      exact hbest rfl
    obtain ⟨p, d, rfl, hne, heq, hvalue⟩ := ih (by omega) hprev
    refine ⟨p, d + 1, rfl, hne, heq, ?_⟩
    have hsum : (((d + 1 : Nat) : Int) * S.slope m trailing q : Int) =
        (d : Int) * S.slope m trailing q + S.slope m trailing q := by
      push_cast
      ring
    rw [hfall, hvalue, hsum, WithBot.coe_add, add_assoc]

theorem Fills.fits_of_exact (hq : q < m) (hc : c < n) (hscored : exact q c ≠ ⊥) : S.fits q c := by
  by_contra hnot
  cases q with
  | zero => exact hscored ((h.first c hc hq).2 hnot)
  | succ q =>
    cases c with
    | zero => exact hscored (h.edge q hq)
    | succ c => exact hscored ((h.next q c hq hc).2 hnot)

theorem Fills.attained (hbonus : ∀ c, S.bonus c < S.streak) (hq : q < m) (hc : c < n)
    (hexact : exact q c = v) : ∃ places, S.Aligned places q c v := by
  induction q generalizing c v with
  | zero =>
    have hfits := h.fits_of_exact hq hc (hexact ▸ WithBot.coe_ne_bot)
    rw [(h.first c hc hq).1 hfits, WithBot.coe_inj] at hexact
    exact ⟨[c], hexact ▸ .first hfits⟩
  | succ q ih =>
    have hfits := h.fits_of_exact hq hc (hexact ▸ WithBot.coe_ne_bot)
    cases c with
    | zero =>
      rw [h.edge q hq] at hexact
      exact absurd hexact.symm WithBot.coe_ne_bot
    | succ c =>
      have hrow := (h.next q c hq hc).1 hfits
      have hslope : S.slope m trailing q = S.gap := if_neg (by omega)
      rw [hexact] at hrow
      by_cases hstreak : best q c + (S.bonus (c + 1) : Int) ≤ exact q c + (S.streak : Int)
      · rw [max_eq_right hstreak] at hrow
        obtain ⟨x, hx⟩ : ∃ x : Int, (x : WithBot Int) = exact q c := by
          rw [← WithBot.ne_bot_iff_exists]
          intro hnone
          rw [hnone, WithBot.bot_add] at hrow
          exact WithBot.coe_ne_bot hrow
        obtain ⟨places, hplaces⟩ := ih (by omega) (by omega) hx.symm
        rw [← hx, ← WithBot.coe_add, WithBot.coe_inj] at hrow
        have hjoin : S.join c (c + 1) = S.streak := if_pos rfl
        exact ⟨places ++ [c + 1], hrow ▸ hjoin ▸ .next hplaces (Nat.lt_succ_self c) hfits⟩
      · have hlt := not_le.mp hstreak
        rw [max_eq_left hlt.le] at hrow
        have hbest : best q c ≠ ⊥ := by
          intro hnone
          rw [hnone, WithBot.bot_add] at hlt
          exact not_lt_bot hlt
        obtain ⟨p, d, rfl, hne, -, hvalue⟩ := h.source (by omega) (by omega) hbest
        obtain ⟨x, hx⟩ := WithBot.ne_bot_iff_exists.mp hne
        rw [hvalue, ← hx, hslope, ← WithBot.coe_add, ← WithBot.coe_add] at hrow hlt
        -- Without a gap the streak would be worth more than the bonus.
        have hpos : d ≠ 0 := by
          rintro rfl
          have hless := hbonus (p + 0 + 1)
          rw [Nat.add_zero, ← hx, ← WithBot.coe_add, WithBot.coe_lt_coe] at hlt
          rw [Nat.add_zero] at hless
          omega
        obtain ⟨places, hplaces⟩ := ih (by omega) (by omega) hx.symm
        have hjoin : S.join p (p + d + 1) = S.bonus (p + d + 1) + (d : Int) * S.gap := by
          have hgap : ((p + d + 1 - p - 1 : Nat) : Int) = d := by omega
          rw [join, if_neg (by omega), hgap]
        have hsum : v = x + S.join p (p + d + 1) := by
          rw [hjoin, WithBot.coe_inj.mp hrow]
          omega
        exact ⟨places ++ [p + d + 1], hsum ▸ .next hplaces (by omega) hfits⟩

end

theorem Aligned.length (h : S.Aligned places q c v) : places.length = q + 1 := by
  induction h with
  | first fits => rfl
  | next before later fits ih => rw [List.length_append, ih, List.length_singleton]

theorem Aligned.getLast (h : S.Aligned places q c v) : places.getLast? = some c := by
  cases h with
  | first fits => rfl
  | next before later fits => exact List.getLast?_concat

theorem Aligned.last {x : Nat} (h : S.Aligned (places ++ [x]) q c v) (hne : places ≠ []) :
    x = c ∧ ∃ q' p w, q = q' + 1 ∧ p < c ∧ S.fits q c ∧ S.Aligned places q' p w ∧
      v = w + S.join p c := by
  generalize hlist : places ++ [x] = list at h
  cases h with
  | first fits =>
    have hlength := congrArg List.length hlist
    rw [List.length_append, List.length_singleton, List.length_singleton] at hlength
    exact absurd (List.eq_nil_of_length_eq_zero (by omega)) hne
  | @next before q p c w hbefore later fits =>
    obtain ⟨rfl, hx⟩ := List.append_inj' hlist rfl
    exact ⟨List.head_eq_of_cons_eq hx, q, p, w, rfl, later, fits, hbefore, rfl⟩

/-- What leads to a place may be exchanged. -/
theorem Aligned.exchange {front rest : List Nat} {x : Nat}
    (h : S.Aligned (front ++ x :: rest) q c v) : ∃ w, S.Aligned (front ++ [x]) front.length x w ∧
      ∀ others w', S.Aligned (others ++ [x]) front.length x w' →
        S.Aligned (others ++ x :: rest) q c (v - w + w') := by
  induction rest using List.reverseRecOn generalizing q c v with
  | nil =>
    have hlength := h.length
    rw [List.length_append, List.length_singleton] at hlength
    obtain rfl : q = front.length := by omega
    obtain rfl : x = c := by
      have hlast := h.getLast
      rw [List.getLast?_concat] at hlast
      exact Option.some.inj hlast
    exact ⟨v, h, fun others w' h' => by rwa [sub_self, zero_add]⟩
  | append_singleton rest y ih =>
    have hassoc (list : List Nat) : list ++ x :: (rest ++ [y]) = (list ++ x :: rest) ++ [y] := by
      simp
    rw [hassoc] at h
    obtain ⟨rfl, q, p, u, rfl, hlater, hfits, hbefore, rfl⟩ := h.last (by simp)
    obtain ⟨w, hw, hothers⟩ := ih hbefore
    refine ⟨w, hw, fun others w' h' => ?_⟩
    rw [hassoc, show u + S.join p y - w + w' = u - w + w' + S.join p y by ring]
    exact .next (hothers others w' h') hlater hfits

/-- With the last item before a place the first `q + 1` items are worth more than with it there. -/
def Beaten (S : Scoring) (q c : Nat) : Prop :=
  ∃ places p v, p < c ∧ S.Aligned places q p v ∧ ∀ others w, S.Aligned others q c w →
    w < v + ((c - p : Nat) : Int) * S.gap

theorem Fills.beaten_iff (h : S.Fills m n trailing exact best)
    (hbonus : ∀ c, S.bonus c < S.streak) (hq : q + 1 < m) (hc : c < n) :
    S.Beaten q c ↔ exact q c ≠ best q c := by
  have hslope : S.slope m trailing q = S.gap := if_neg (by omega)
  constructor
  · rintro ⟨places, p, v, hlt, ha, hless⟩ heq
    obtain ⟨d, rfl⟩ : ∃ d, c = p + d := ⟨c - p, by omega⟩
    have hle := ha.le_best h (by omega) d hc
    rw [hslope, ← heq] at hle
    have hscored : exact q (p + d) ≠ ⊥ := by
      intro hnone
      rw [hnone, le_bot_iff] at hle
      exact WithBot.coe_ne_bot hle
    obtain ⟨x, hx⟩ := WithBot.ne_bot_iff_exists.mp hscored
    obtain ⟨others, hothers⟩ := h.attained hbonus (by omega) hc hx.symm
    have hbeaten := hless others x hothers
    rw [Nat.add_sub_cancel_left] at hbeaten
    rw [← hx, WithBot.coe_le_coe] at hle
    omega
  · intro hne
    have hlt : exact q c < best q c := lt_of_le_of_ne (h.exact_le_best (by omega) hc) hne
    obtain ⟨p, d, rfl, hscored, heq, hvalue⟩ := h.source (by omega : q < m) hc (ne_bot_of_gt hlt)
    obtain ⟨x, hx⟩ := WithBot.ne_bot_iff_exists.mp hscored
    obtain ⟨places, hplaces⟩ := h.attained hbonus (by omega) (by omega) hx.symm
    have hpos : d ≠ 0 := by
      rintro rfl
      exact hne heq
    refine ⟨places, p, x, by omega, hplaces, fun others w hothers => ?_⟩
    have hle := hothers.le_exact h (by omega) hc
    rw [hvalue, ← hx, hslope, ← WithBot.coe_add] at hlt
    rw [Nat.add_sub_cancel_left]
    exact WithBot.coe_lt_coe.mp (lt_of_le_of_lt hle hlt)

end Scoring

end Bbr.Lib

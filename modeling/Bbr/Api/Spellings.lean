import Bbr.Api.MemberSearch

/-!
# Spellings of a name

An accepted name has a bounded number of scalars, and a spelling at most twice as many. The
spellings of a text are cut at the same places, so that they have the same number of parts.
-/
namespace Bbr.Api.MemberSearch

open List
open Bbr.Search (Scalar utf8Decode)

variable {fold : Scalar → Scalar} {form : Fin 3} {cp : Scalar} {scalars token : List Scalar}

theorem validateScalars_ok {count : Nat} {nonblank : Bool}
    (h : validateScalars scalars count nonblank = .ok ()) (hcount : count ≤ maxQueryScalars) :
    scalars.length + count ≤ maxQueryScalars := by
  induction scalars generalizing count nonblank with
  | nil => simpa using hcount
  | cons cp rest ih =>
    rw [validateScalars] at h
    split at h
    · cases h
    split at h
    · cases h
    rename_i hle
    have hrest := ih h (by omega)
    rw [length_cons]
    omega

theorem validateName_ok {name : Bytes} (h : validateName name = .ok ()) :
    ∃ scalars, utf8Decode name = some scalars ∧ scalars.length ≤ maxQueryScalars := by
  rw [validateName] at h
  split at h
  · cases h
  · next scalars hscalars =>
    exact ⟨scalars, hscalars, validateScalars_ok h (Nat.zero_le _)⟩

theorem normalizeFrom_length (fold : Scalar → Scalar) (normalized scalars : List Scalar) :
    (normalizeFrom fold normalized scalars).length ≤ normalized.length + scalars.length := by
  induction scalars generalizing normalized with
  | nil => simp [normalizeFrom]
  | cons cp rest ih =>
    rw [normalizeFrom, length_cons]
    split
    · have := ih normalized
      omega
    · have := ih (normalized ++ [fold cp])
      rw [length_append, length_singleton] at this
      omega

theorem normalize_length (fold : Scalar → Scalar) (scalars : List Scalar) :
    (normalize fold scalars).length ≤ scalars.length := by
  have hlength := normalizeFrom_length fold [] scalars
  rw [length_nil, Nat.zero_add] at hlength
  simp only [normalize]
  split
  · rw [length_dropLast]
    omega
  · exact hlength

theorem aliasScalar_length (form : Fin 3) (cp : Scalar) :
    1 ≤ (aliasScalar form cp).length ∧ (aliasScalar form cp).length ≤ 2 := by
  unfold aliasScalar
  split
  · have htail : (if form = 2 then [0x65] else ([] : List Scalar)).length ≤ 1 := by
      split <;> simp
    rw [length_cons]
    omega
  · split <;> simp

theorem spellingOf_length (normalized : List Scalar) (form : Fin 3) :
    (spellingOf normalized form).length ≤ 2 * normalized.length := by
  unfold spellingOf
  split
  · omega
  induction normalized with
  | nil => simp
  | cons cp rest ih =>
    have := aliasScalar_length form cp
    rw [flatMap_cons, length_append, length_cons]
    omega

theorem tokenizeFrom_length (token scalars : List Scalar) :
    ∀ part ∈ tokenizeFrom token scalars, part.length ≤ token.length + scalars.length := by
  induction scalars generalizing token with
  | nil =>
    intro part hpart
    rw [tokenizeFrom] at hpart
    split at hpart
    · cases hpart
    · rw [mem_singleton.mp hpart]
      omega
  | cons cp rest ih =>
    intro part hpart
    rw [tokenizeFrom] at hpart
    rw [length_cons]
    split at hpart
    · cases mem_append.mp hpart with
      | inl hpart =>
        split at hpart
        · cases hpart
        · rw [mem_singleton.mp hpart]
          omega
      | inr hpart =>
        have := ih [] part hpart
        rw [length_nil] at this
        omega
    · have := ih (token ++ [cp]) part hpart
      rw [length_append, length_singleton] at this
      omega

theorem aliasScalar_separator (h : isSeparator cp = true) : aliasScalar form cp = [cp] := by
  have hcases : cp = 0x20 ∨ cp = 0x2c ∨ cp = 0x2e ∨ cp = 0x2d := by
    simpa [isSeparator, or_assoc] using h
  rcases hcases with rfl | rfl | rfl | rfl <;> simp [aliasScalar]

theorem aliasScalar_no_separator (h : isSeparator cp = false) :
    ∀ c ∈ aliasScalar form cp, isSeparator c = false := by
  unfold aliasScalar
  split
  · intro c hc
    cases hc with
    | head => split <;> [decide; (split <;> decide)]
    | tail _ hc =>
      split at hc
      · rw [mem_singleton.mp hc]
        decide
      · cases hc
  · split
    · decide
    · simpa using h

theorem flatMap_eq_nil {g : Scalar → List Scalar} (hg : ∀ c, g c ≠ []) :
    scalars.flatMap g = [] ↔ scalars = [] := by
  cases scalars with
  | nil => simp
  | cons cp rest => simp [hg cp]

theorem tokenizeFrom_append {block : List Scalar} (h : ∀ c ∈ block, isSeparator c = false) :
    tokenizeFrom token (block ++ scalars) = tokenizeFrom (token ++ block) scalars := by
  induction block generalizing token with
  | nil => simp
  | cons cp block ih =>
    have hcp := h cp mem_cons_self
    have hrest := @ih (token ++ [cp]) (fun c hc => h c (mem_cons_of_mem _ hc))
    rw [cons_append, tokenizeFrom, if_neg (by simp [hcp]), hrest]
    simp

theorem tokenizeFrom_flatMap (form : Fin 3) (token scalars : List Scalar) :
    tokenizeFrom (token.flatMap (aliasScalar form)) (scalars.flatMap (aliasScalar form)) =
      (tokenizeFrom token scalars).map (fun part => part.flatMap (aliasScalar form)) := by
  have hne : ∀ c, aliasScalar form c ≠ [] := by
    intro c hc
    have := (aliasScalar_length form c).1
    simp [hc] at this
  induction scalars generalizing token with
  | nil =>
    by_cases htoken : token = []
    · simp [tokenizeFrom, htoken]
    · simp [tokenizeFrom, htoken, flatMap_eq_nil hne]
  | cons cp rest ih =>
    cases hcp : isSeparator cp with
    | true =>
      have hrest := ih []
      rw [flatMap_nil] at hrest
      rw [flatMap_cons, aliasScalar_separator hcp, singleton_append, tokenizeFrom,
        if_pos hcp, hrest, tokenizeFrom, if_pos hcp, map_append]
      by_cases htoken : token = []
      · simp [htoken]
      · simp [htoken, flatMap_eq_nil hne]
    | false =>
      have hrest := ih (token ++ [cp])
      rw [flatMap_append, flatMap_singleton] at hrest
      rw [flatMap_cons, tokenizeFrom_append (aliasScalar_no_separator hcp), hrest,
        tokenizeFrom, if_neg (by simp [hcp])]

/-- The spellings have the same parts, and their lengths are bounded. -/
structure Spelled (limit : Nat) (text : Text) : Prop where
  count : ∀ form, (text.parts form).length = (text.parts 0).length
  form_le : ∀ form, (text.forms form).length ≤ limit
  part_le : ∀ form, ∀ part ∈ text.parts form, part.length ≤ limit

theorem prepare_ok {bytes : Bytes} {text : Text} (h : prepare fold bytes = .ok text) :
    ∃ scalars, utf8Decode bytes = some scalars ∧ Spelled (2 * scalars.length) text := by
  rw [prepare] at h
  split at h
  · cases h
  rename_i scalars hscalars
  cases h
  have hlength : ∀ form, (spellingOf (normalize fold scalars) form).length ≤ 2 * scalars.length := by
    intro form
    have := spellingOf_length (normalize fold scalars) form
    have := normalize_length fold scalars
    omega
  refine ⟨scalars, hscalars, fun form => ?_, hlength, fun form part hpart => ?_⟩
  · by_cases hform : form = 0
    · rw [hform]
    · have htokens := tokenizeFrom_flatMap form [] (normalize fold scalars)
      rw [flatMap_nil] at htokens
      simp only [spellingOf, if_neg hform, if_true, htokens, length_map]
  · have := tokenizeFrom_length [] _ part hpart
    have := hlength form
    rw [length_nil] at *
    omega

theorem query_spelled {name : Bytes} {query : Text} (hname : validateName name = .ok ())
    (hquery : prepare fold name = .ok query) : Spelled (2 * maxQueryScalars) query := by
  obtain ⟨scalars, hscalars, hlength⟩ := validateName_ok hname
  obtain ⟨scalars', hscalars', hspelled⟩ := prepare_ok hquery
  rw [hscalars] at hscalars'
  cases hscalars'
  have hle : 2 * scalars.length ≤ 2 * maxQueryScalars := Nat.mul_le_mul_left 2 hlength
  exact ⟨hspelled.count, fun form => Nat.le_trans (hspelled.form_le form) hle,
    fun form part hpart => Nat.le_trans (hspelled.part_le form part hpart) hle⟩

end Bbr.Api.MemberSearch

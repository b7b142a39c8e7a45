import Bbr.Search.Candidate
import Mathlib.Algebra.BigOperators.Group.List.Basic

/-!
# Scalars, bytes and regions

The scalars of a text lie behind each other, so places of scalars and bytes have one order. Regions
are pieces of the text in its order.
-/
namespace Bbr.Search

open List Option

variable {text : Text} {scalars : List PlacedScalar} {i j k n : Nat} {s s' : PlacedScalar}

theorem utf8Length_pos (scalar : Scalar) : 0 < utf8Length scalar := by
  rw [utf8Length, utf8Encode]
  split
  · simp
  · split
    · simp
    · split <;> simp

def byteLength (text : Text) : Nat := (text.map utf8Length).sum

@[simp] theorem byteLength_nil : byteLength [] = 0 := rfl

@[simp] theorem byteLength_cons (scalar : Scalar) (text : Text) :
    byteLength (scalar :: text) = utf8Length scalar + byteLength text := by
  simp [byteLength]

theorem cut_byteLength (text : Text) (i : Nat) :
    dropBytes text (byteLength (text.take i)) = some (text.drop i) ∧
      takeBytes text (byteLength (text.take i)) = some (text.take i) := by
  induction text generalizing i with
  | nil => simp [dropBytes, takeBytes]
  | cons scalar text ih =>
    cases i with
    | zero => simp [dropBytes, takeBytes]
    | succ i =>
      have hpos := utf8Length_pos scalar
      rw [take_succ_cons, byteLength_cons, drop_succ_cons]
      obtain ⟨n, hn⟩ : ∃ n, utf8Length scalar + byteLength (text.take i) = n + 1 :=
        ⟨_, (Nat.succ_pred (by omega)).symm⟩
      rw [hn, dropBytes, takeBytes, if_neg (by omega), if_neg (by omega), ← hn,
        Nat.add_sub_cancel_left, (ih i).1, (ih i).2]
      exact ⟨rfl, rfl⟩

theorem byteLength_take_le (text : Text) (h : i ≤ j) :
    byteLength (text.take i) ≤ byteLength (text.take j) := by
  induction text generalizing i j with
  | nil => simp
  | cons scalar text ih =>
    cases i with
    | zero => simp
    | succ i =>
      cases j with
      | zero => omega
      | succ j =>
        have := ih (Nat.le_of_succ_le_succ h)
        simp only [take_succ_cons, byteLength_cons]
        omega

theorem byteLength_drop_take (text : Text) (h : i ≤ j) : byteLength ((text.drop i).take (j - i)) =
      byteLength (text.take j) - byteLength (text.take i) := by
  induction text generalizing i j with
  | nil => simp
  | cons scalar text ih =>
    cases i with
    | zero => simp
    | succ i =>
      cases j with
      | zero => omega
      | succ j =>
        have := ih (Nat.le_of_succ_le_succ h)
        simp only [take_succ_cons, byteLength_cons, drop_succ_cons, Nat.add_sub_add_right]
        omega

theorem slice_byteLength (text : Text) (h : i ≤ j) :
    slice text (byteLength (text.take i)) (byteLength (text.take j)) =
      some ((text.drop i).take (j - i)) := by
  rw [slice, (cut_byteLength text _).1, bind_some, ← byteLength_drop_take text h]
  exact (cut_byteLength _ _).2

theorem decodeFrom_getElem? (start : Nat) (text : Text) (i : Nat) :
    (decodeFrom start text)[i]? = text[i]?.map (fun value =>
      ⟨value, ⟨start + byteLength (text.take i), start + byteLength (text.take (i + 1))⟩⟩) := by
  induction text generalizing start i with
  | nil => rfl
  | cons scalar text ih =>
    cases i with
    | zero => simp [decodeFrom]
    | succ i =>
      rw [decodeFrom, getElem?_cons_succ, ih, getElem?_cons_succ]
      simp only [take_succ_cons, byteLength_cons, Nat.add_assoc]

theorem decode_getElem? (text : Text) (i : Nat) : (decode text)[i]? = text[i]?.map (fun value =>
    ⟨value, ⟨byteLength (text.take i), byteLength (text.take (i + 1))⟩⟩) := by
  simpa [decode] using decodeFrom_getElem? 0 text i

@[simp] theorem decode_length (text : Text) : (decode text).length = text.length := by
  have hfrom : ∀ start, (decodeFrom start text).length = text.length := by
    induction text with
    | nil => exact fun _ => rfl
    | cons scalar text ih =>
      intro start
      rw [decodeFrom, length_cons, length_cons, ih]
  exact hfrom 0

theorem decode_map_value (text : Text) : (decode text).map PlacedScalar.value = text := by
  refine ext_getElem? (fun i => ?_)
  rw [getElem?_map, decode_getElem?, Option.map_map]
  exact Option.map_id'

/-- Scalars that lie behind each other. -/
structure Ascending (scalars : List PlacedScalar) : Prop where
  within : ∀ (i : Nat) (s : PlacedScalar), scalars[i]? = some s → s.bytes.start < s.bytes.stop
  next : ∀ (i : Nat) (s s' : PlacedScalar), scalars[i]? = some s → scalars[i + 1]? = some s' →
    s.bytes.stop = s'.bytes.start

theorem decode_ascending (text : Text) : Ascending (decode text) := by
  constructor
  · intro i s hs
    rw [decode_getElem?, map_eq_some_iff] at hs
    obtain ⟨value, hvalue, rfl⟩ := hs
    have hpos := utf8Length_pos value
    have htake : text.take (i + 1) = text.take i ++ [value] := by
      rw [List.take_add_one, hvalue]
      rfl
    simp only [htake, byteLength, map_append, sum_append, map_cons, map_nil, sum_cons, sum_nil]
    omega
  · intro i s s' hs hs'
    rw [decode_getElem?, map_eq_some_iff] at hs hs'
    obtain ⟨value, -, rfl⟩ := hs
    obtain ⟨value', -, rfl⟩ := hs'
    rfl

namespace Ascending

variable (h : Ascending scalars)
include h

theorem stop_le (hs : scalars[i]? = some s) (hs' : scalars[j]? = some s') (hlt : i < j) :
    s.bytes.stop ≤ s'.bytes.start := by
  induction j generalizing s' with
  | zero => omega
  | succ j ih =>
    obtain rfl | hlt := Nat.eq_or_lt_of_le (Nat.le_of_lt_succ hlt)
    · exact Nat.le_of_eq (h.next i s s' hs hs')
    have hj := (List.getElem?_eq_some_iff.mp hs').1
    have hmiddle : scalars[j]? = some (scalars.get ⟨j, by omega⟩) := List.getElem?_eq_getElem (by omega)
    have hle := ih hmiddle hlt
    have hwithin := h.within j _ hmiddle
    have hnext := h.next j _ s' hmiddle hs'
    omega

theorem start_lt_stop_iff (hs : scalars[i]? = some s) (hs' : scalars[j]? = some s') :
    s'.bytes.start < s.bytes.stop ↔ j ≤ i := by
  constructor
  · intro hlt
    by_contra hnot
    have := h.stop_le hs hs' (by omega)
    omega
  intro hle
  have hwithin := h.within i s hs
  obtain rfl | hlt := Nat.eq_or_lt_of_le hle
  · obtain rfl := some.inj (hs.symm.trans hs')
    exact hwithin
  · have := h.stop_le hs' hs hlt
    have hwithin' := h.within j s' hs'
    omega

end Ascending

theorem joinRange_append {ranges : List Range} {start stop : Nat} (range : Range)
    (hmeets : range.start ≤ stop) (hstop : stop ≤ range.stop) :
    joinRange (ranges ++ [⟨start, stop⟩]) range = ranges ++ [⟨start, range.stop⟩] := by
  rw [joinRange, getLast?_concat]
  simp only [hmeets, if_true, dropLast_concat, Nat.max_eq_right hstop]

theorem mergedScalarRanges_range' (h : Ascending scalars) {start n : Nat} {first last : PlacedScalar}
    (hfirst : scalars[start]? = some first) (hlast : scalars[start + n]? = some last) :
    mergedScalarRanges scalars (range' start (n + 1)) = [⟨first.bytes.start, last.bytes.stop⟩] := by
  induction n generalizing last with
  | zero =>
    obtain rfl := some.inj (hfirst.symm.trans hlast)
    simp [mergedScalarRanges, hfirst, joinRange]
  | succ n ih =>
    have hlt := (List.getElem?_eq_some_iff.mp hlast).1
    have hmiddle : scalars[start + n]? = some (scalars.get ⟨start + n, by omega⟩) :=
      List.getElem?_eq_getElem (by omega)
    have hnext := h.next _ _ _ hmiddle hlast
    have hwithin := h.within _ _ hlast
    have hwindow := ih hmiddle
    rw [mergedScalarRanges] at hwindow ⊢
    rw [range'_concat, filterMap_append, foldl_append, hwindow]
    simp only [Nat.one_mul, filterMap_cons, hlast, filterMap_nil, foldl_cons, foldl_nil]
    have hjoin := @joinRange_append [] first.bytes.start (scalars.get ⟨start + n, by omega⟩).bytes.stop
      last.bytes (Nat.le_of_eq hnext.symm) (by omega)
    simpa using hjoin

theorem regionsFrom_spec (scalars : List PlacedScalar) (boundaries : List Nat) {start : Nat}
    (hstart : start ≤ scalars.length) :
    (∀ region ∈ regionsFrom scalars boundaries start,
      start ≤ region.start ∧ region.start < region.stop ∧ region.stop ≤ scalars.length) ∧
      (regionsFrom scalars boundaries start).Pairwise (fun a b => a.stop ≤ b.start) := by
  induction boundaries generalizing start with
  | nil =>
    rw [regionsFrom]
    split
    · next hlt => simpa using hlt
    · simp
  | cons boundary boundaries ih =>
    have hcursor : start + ((scalars.drop start).takeWhile
        (fun s => decide (s.bytes.start < boundary))).length ≤ scalars.length := by
      have := (List.takeWhile_prefix (l := scalars.drop start)
        (fun s => decide (s.bytes.start < boundary))).length_le
      rw [length_drop] at this
      omega
    have hle := Nat.le_add_right start ((scalars.drop start).takeWhile
        (fun s => decide (s.bytes.start < boundary))).length
    obtain ⟨hrest, hapart⟩ := ih hcursor
    refine ⟨fun region hregion => ?_, pairwise_append.mpr ⟨?_, hapart, ?_⟩⟩
    · obtain hregion | hregion := mem_append.mp hregion
      · split at hregion
        · next hlt =>
          obtain rfl := mem_singleton.mp hregion
          exact ⟨Nat.le_refl _, hlt, hcursor⟩
        · cases hregion
      · obtain ⟨hcursor, hwithin⟩ := hrest region hregion
        exact ⟨Nat.le_trans hle hcursor, hwithin⟩
    · split <;> simp
    · intro region hregion other hother
      split at hregion
      · obtain rfl := mem_singleton.mp hregion
        exact (hrest other hother).1
      · cases hregion

theorem scalarRegions_spec (scalars : List PlacedScalar) (boundaries : List Nat) :
    (∀ region ∈ scalarRegions scalars boundaries,
      region.start ≤ region.stop ∧ region.stop ≤ scalars.length) ∧
      (scalarRegions scalars boundaries).Pairwise (fun a b => a.stop ≤ b.start) := by
  obtain ⟨hwithin, hapart⟩ := regionsFrom_spec scalars boundaries (Nat.zero_le scalars.length)
  simp only [scalarRegions]
  split
  · simp
  · exact ⟨fun region hregion => ⟨Nat.le_of_lt (hwithin region hregion).2.1,
      (hwithin region hregion).2.2⟩, hapart⟩

theorem scalarRegions_whole (scalars : List PlacedScalar) :
    scalarRegions scalars [] = [⟨0, scalars.length⟩] := by
  rw [scalarRegions, regionsFrom]
  split <;> rfl

end Bbr.Search

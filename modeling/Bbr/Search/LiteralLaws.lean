import Bbr.Lib.Pairings
import Bbr.Search.CandidateLaws
import Bbr.Search.FuzzyLaws
import Bbr.Search.Literal

/-!
# What literal matching finds

Every match of a region meets one that is listed, and those that are listed do not meet each other.
The search over the graph of a text without alternative spellings goes over all matches and keeps
the ones that were authored apart.
-/
namespace Bbr.Search

open List Option
open Bbr.Lib (forall₂_mem)

variable {uc : UnicodeCase} {query : Query} {candidate : Candidate}
  {scalars : List PlacedScalar} {region : Range} {s t : Nat}

/-- The scalars from `start` on are those of the query. -/
def WindowMatches (uc : UnicodeCase) (query : Query) (needles : List Scalar)
    (scalars : List PlacedScalar) (start : Nat) : Prop :=
  ∀ (i : Nat) (needle : Scalar), needles[i]? = some needle →
    ∃ s : PlacedScalar, scalars[start + i]? = some s ∧ equalScalar uc query needle s.value = true

structure IsMatch (uc : UnicodeCase) (query : Query) (scalars : List PlacedScalar)
    (region : Range) (start : Nat) : Prop where
  le : region.start ≤ start
  stop : start + query.scalars.length ≤ region.stop
  window : WindowMatches uc query query.scalars scalars start

theorem startsWith_iff {needles : List Scalar} {text : Text} : startsWith uc query needles text = true ↔
      ∀ (i : Nat) (needle : Scalar), needles[i]? = some needle →
        ∃ v : Scalar, text[i]? = some v ∧ equalScalar uc query needle v = true := by
  induction needles generalizing text with
  | nil => simp [startsWith]
  | cons needle needles ih =>
    cases text with
    | nil =>
      refine iff_of_false (by simp [startsWith]) (fun h => ?_)
      obtain ⟨v, hv, -⟩ := h 0 needle rfl
      cases hv
    | cons scalar text =>
      rw [startsWith, Bool.and_eq_true, ih]
      constructor
      · rintro ⟨hhead, htail⟩ i needle' hneedle
        cases i with
        | zero =>
          obtain rfl := some.inj hneedle
          exact ⟨scalar, rfl, hhead⟩
        | succ i => exact htail i needle' hneedle
      · intro h
        obtain ⟨v, hv, hhead⟩ := h 0 needle rfl
        obtain rfl := some.inj hv
        exact ⟨hhead, fun i needle' hneedle => h (i + 1) needle' hneedle⟩

theorem matchesAt_iff : matchesAt uc query scalars s = true ↔
    WindowMatches uc query query.scalars scalars s := by
  rw [matchesAt, startsWith_iff]
  refine forall_congr' (fun i => forall_congr' (fun needle => imp_congr_right (fun _ => ?_)))
  rw [getElem?_map, getElem?_drop]
  constructor
  · rintro ⟨v, hv, hequal⟩
    obtain ⟨scalar, hscalar, rfl⟩ := map_eq_some_iff.mp hv
    exact ⟨scalar, hscalar, hequal⟩
  · rintro ⟨scalar, hscalar, hequal⟩
    exact ⟨scalar.value, by rw [hscalar]; rfl, hequal⟩

/-- The leftmost matches of a region that do not meet each other: every match meets one of them that
does not begin behind it. -/
structure Leftmost (uc : UnicodeCase) (query : Query) (scalars : List PlacedScalar)
    (region : Range) (starts : List Nat) : Prop where
  isMatch : ∀ s ∈ starts, IsMatch uc query scalars region s
  apart : starts.Pairwise (fun s t => s + query.scalars.length ≤ t)
  leftmost : ∀ t, IsMatch uc query scalars region t →
    ∃ s ∈ starts, s ≤ t ∧ t < s + query.scalars.length

theorem IsMatch.narrow {start : Nat} (h : IsMatch uc query scalars region s)
    (hle : start ≤ s) : IsMatch uc query scalars ⟨start, region.stop⟩ s :=
  ⟨hle, h.stop, h.window⟩

theorem literalStarts_leftmost (hpos : 0 < query.scalars.length) {stop fuel start : Nat}
    (hfuel : stop - start < fuel) : Leftmost uc query scalars ⟨start, stop⟩
      (literalStarts uc query scalars stop fuel start) := by
  induction fuel generalizing start with
  | zero => omega
  | succ fuel ih =>
    rw [literalStarts]
    split
    · next hroom =>
      split
      · next hmatch =>
        have hrest := @ih (start + query.scalars.length) (by omega)
        have hself : IsMatch uc query scalars ⟨start, stop⟩ start :=
          ⟨Nat.le_refl _, hroom, matchesAt_iff.mp hmatch⟩
        refine ⟨fun s hs => ?_, pairwise_cons.mpr ⟨fun t ht => (hrest.isMatch t ht).le,
          hrest.apart⟩, fun t ht => ?_⟩
        · obtain rfl | hs := mem_cons.mp hs
          · exact hself
          · have hmatch := hrest.isMatch s hs
            exact ⟨Nat.le_trans (Nat.le_add_right _ _) hmatch.le, hmatch.stop, hmatch.window⟩
        · by_cases hlt : t < start + query.scalars.length
          · exact ⟨start, mem_cons_self, ht.le, hlt⟩
          · obtain ⟨s, hs, hmeets⟩ := hrest.leftmost t (ht.narrow (Nat.not_lt.mp hlt))
            exact ⟨s, mem_cons_of_mem _ hs, hmeets⟩
      · next hmiss =>
        have hrest := @ih (start + 1) (by omega)
        refine ⟨fun s hs => ?_, hrest.apart, fun t ht => ?_⟩
        · have hmatch := hrest.isMatch s hs
          exact ⟨Nat.le_of_succ_le hmatch.le, hmatch.stop, hmatch.window⟩
        · have hne : t ≠ start := fun heq => hmiss (matchesAt_iff.mpr (heq ▸ ht.window))
          have hle := ht.le
          exact hrest.leftmost t (ht.narrow (by simp only at hle; omega))
    · next hroom =>
      refine ⟨forall_mem_nil _, .nil, fun t ht => ?_⟩
      have hle := ht.le
      have hstop := ht.stop
      simp only at hle hstop
      omega

theorem Leftmost.unique (hpos : 0 < query.scalars.length) {starts starts' : List Nat}
    (h : Leftmost uc query scalars region starts)
    (h' : Leftmost uc query scalars region starts') : starts = starts' := by
  induction starts generalizing starts' region with
  | nil =>
    cases starts' with
    | nil => rfl
    | cons t starts' =>
      obtain ⟨s, hs, -⟩ := h.leftmost t (h'.isMatch t mem_cons_self)
      cases hs
  | cons s starts ih =>
    cases starts' with
    | nil =>
      obtain ⟨t, ht, -⟩ := h'.leftmost s (h.isMatch s mem_cons_self)
      cases ht
    | cons t starts' =>
      obtain ⟨hapart, hrest⟩ := pairwise_cons.mp h.apart
      obtain ⟨hapart', hrest'⟩ := pairwise_cons.mp h'.apart
      -- Each of the first matches meets one of the other list, which begins with its first one.
      obtain ⟨s', hs', hle, -⟩ := h.leftmost t (h'.isMatch t mem_cons_self)
      obtain ⟨t', ht', hle', -⟩ := h'.leftmost s (h.isMatch s mem_cons_self)
      have hst : s ≤ t := by
        obtain rfl | hs' := mem_cons.mp hs'
        · exact hle
        · have := hapart s' hs'
          omega
      have hts : t ≤ s := by
        obtain rfl | ht' := mem_cons.mp ht'
        · exact hle'
        · have := hapart' t' ht'
          omega
      obtain rfl := Nat.le_antisymm hst hts
      have hbehind : ∀ {rest : List Nat}, Leftmost uc query scalars region (s :: rest) →
          Leftmost uc query scalars ⟨s + query.scalars.length, region.stop⟩ rest := by
        intro rest hrest
        obtain ⟨hfar, htail⟩ := pairwise_cons.mp hrest.apart
        refine ⟨fun u hu => (hrest.isMatch u (mem_cons_of_mem _ hu)).narrow (hfar u hu), htail,
          fun u hu => ?_⟩
        have hle := hu.le
        have hwide : IsMatch uc query scalars region u :=
          ⟨Nat.le_trans (hrest.isMatch s mem_cons_self).le
            (Nat.le_trans (Nat.le_add_right _ _) hle), hu.stop, hu.window⟩
        obtain ⟨v, hv, hmeets⟩ := hrest.leftmost u hwide
        obtain rfl | hv := mem_cons.mp hv
        · simp only at hle
          omega
        · exact ⟨v, hv, hmeets⟩
      rw [ih (hbehind h) (hbehind h')]

theorem scanLiteral_eq (hpos : 0 < query.scalars.length) (candidate : Candidate)
    (scalars : List PlacedScalar) (region : Range) : ∃ starts, Leftmost uc query scalars region starts ∧
      scanLiteral uc query candidate scalars region =
        starts.mapM (occurrenceAt query candidate scalars) := by
  rw [scanLiteral]
  split
  · next hshort =>
    refine ⟨[], ⟨forall_mem_nil _, .nil, fun t ht => ?_⟩, rfl⟩
    have hle := ht.le
    have hstop := ht.stop
    omega
  · exact ⟨_, literalStarts_leftmost hpos (Nat.lt_succ_self _), rfl⟩

/-! ## The graph of a text without alternatives -/

variable {done : List Scalar}

theorem windowMatches_append {needle : Scalar} : WindowMatches uc query (done ++ [needle]) scalars s ↔
      WindowMatches uc query done scalars s ∧ ∃ scalar, scalars[s + done.length]? = some scalar ∧
        equalScalar uc query needle scalar.value = true := by
  constructor
  · intro h
    refine ⟨fun i other hother => h i other ?_, h _ needle (by simp)⟩
    rw [List.getElem?_append_left (List.getElem?_eq_some_iff.mp hother).1]
    exact hother
  rintro ⟨hdone, hneedle⟩ i other hother
  by_cases hlt : i < done.length
  · rw [getElem?_append_left hlt] at hother
    exact hdone i other hother
  have hi := (List.getElem?_eq_some_iff.mp hother).1
  rw [List.length_append, List.length_singleton] at hi
  obtain rfl : i = done.length := by omega
  rw [List.getElem?_concat_length] at hother
  obtain rfl := some.inj hother
  exact hneedle

/-- Nodes that stand behind each other, one for each scalar. -/
structure IsChain (nodes : List BranchNode) (scalars : List PlacedScalar) : Prop where
  scalar : nodes.map BranchNode.scalar = scalars
  first : ∀ node, nodes[0]? = some node → node.previous = (none, none)
  next : ∀ (i : Nat) (node : BranchNode), nodes[i + 1]? = some node → node.previous = (some i, none)

theorem branchNodes_isChain {semantic : Range} {placed : List PlacedScalar} {index : Nat}
    {previous : Option Nat × Option Nat} :
    (branchNodes semantic false index previous placed).map BranchNode.scalar =
        placed.map (fun s => ⟨s.value, ⟨semantic.start + s.bytes.start, semantic.start + s.bytes.stop⟩⟩) ∧
      (∀ node, (branchNodes semantic false index previous placed)[0]? = some node →
        node.previous = previous) ∧
      ∀ (i : Nat) (node : BranchNode),
        (branchNodes semantic false index previous placed)[i + 1]? = some node →
          node.previous = (some (index + i), none) := by
  induction placed generalizing index previous with
  | nil => simp [branchNodes]
  | cons scalar placed ih =>
    obtain ⟨hscalar, hfirst, hnext⟩ := @ih (index + 1) (some index, none)
    refine ⟨by rw [branchNodes, map_cons, map_cons, hscalar]; rfl, fun node hnode => ?_,
      fun i node hnode => ?_⟩
    · rw [branchNodes] at hnode
      obtain rfl := some.inj hnode
      rfl
    · rw [branchNodes, getElem?_cons_succ] at hnode
      cases i with
      | zero => exact hfirst node hnode
      | succ i =>
        rw [hnext i node hnode, Nat.add_right_comm]
        rfl

/-- A row holds the starts of the matches of some needles by their last scalar. -/
structure RowHolds (uc : UnicodeCase) (query : Query) (scalars : List PlacedScalar)
    (done : List Scalar) (row : List (Option Nat)) : Prop where
  length : row.length = scalars.length
  holds : ∀ (i start : Nat), row[i]? = some (some start) ↔ ∃ s, i + 1 = s + done.length ∧
    WindowMatches uc query done scalars s ∧
      ∃ scalar, scalars[s]? = some scalar ∧ scalar.bytes.start = start

theorem minOption_none (a : Option Nat) : minOption a none = a := by
  cases a <;> rfl

variable {nodes : List BranchNode}

theorem matchRow_holds (hchain : IsChain nodes scalars) {before : List (Option Nat)}
    {first : Bool} (needle : Scalar) (hfirst : first = true ↔ done = [])
    (hbefore : done ≠ [] → RowHolds uc query scalars done before) :
    RowHolds uc query scalars (done ++ [needle]) (matchRow uc query nodes before first needle) := by
  have hlength : nodes.length = scalars.length := by rw [← hchain.scalar, length_map]
  refine ⟨by rw [matchRow, length_map, hlength], fun i start => ?_⟩
  rw [matchRow, getElem?_map, map_eq_some_iff, length_append, length_singleton]
  constructor
  · rintro ⟨node, hnode, hvalue⟩
    have hscalar : scalars[i]? = some node.scalar := by
      rw [← hchain.scalar, getElem?_map, hnode]
      rfl
    split at hvalue
    · next hequal =>
      split at hvalue
      · next hf =>
        obtain rfl := hfirst.mp hf
        have hempty : WindowMatches uc query [] scalars i := fun j other hother => by cases hother
        exact ⟨i, by simp, windowMatches_append.mpr
          ⟨hempty, node.scalar, by simpa using hscalar, hequal⟩, node.scalar, hscalar,
          some.inj hvalue⟩
      · next hf =>
        have hne : done ≠ [] := fun hnil => hf (hfirst.mpr hnil)
        cases i with
        | zero =>
          rw [hchain.first node hnode] at hvalue
          cases hvalue
        | succ i =>
          rw [hchain.next i node hnode, bind_none, minOption_none, bind_some,
            join_eq_some_iff] at hvalue
          obtain ⟨s, hs, hmatch, hstart⟩ := ((hbefore hne).holds i start).mp hvalue
          exact ⟨s, by omega, windowMatches_append.mpr ⟨hmatch, node.scalar, by rw [← hs]; exact hscalar,
            hequal⟩, hstart⟩
    · cases hvalue
  · rintro ⟨s, hs, hmatch, scalar, hscalar, hstart⟩
    obtain ⟨hdone, last, hlast, hequal⟩ := windowMatches_append.mp hmatch
    have hi : i = s + done.length := by omega
    rw [← hi, ← hchain.scalar, getElem?_map, map_eq_some_iff] at hlast
    obtain ⟨node, hnode, rfl⟩ := hlast
    refine ⟨node, hnode, ?_⟩
    rw [if_pos hequal]
    split
    · next hf =>
      obtain rfl := hfirst.mp hf
      have : scalars[i]? = some node.scalar := by
        rw [← hchain.scalar, getElem?_map, hnode]
        rfl
      rw [hi, length_nil, Nat.add_zero, hscalar] at this
      rw [← some.inj this, hstart]
    · next hf =>
      have hne : done ≠ [] := fun hnil => hf (hfirst.mpr hnil)
      have hpos := length_pos_iff.mpr hne
      obtain ⟨j, rfl⟩ : ∃ j, i = j + 1 := ⟨i - 1, by omega⟩
      rw [hchain.next j node hnode, bind_none, minOption_none, bind_some, join_eq_some_iff]
      exact ((hbefore hne).holds j start).mpr ⟨s, by omega, hdone, scalar, hscalar, hstart⟩

theorem matchRows_holds (hchain : IsChain nodes scalars)
    (needles : List Scalar) {done : List Scalar} {before : List (Option Nat)} {first : Bool}
    (hfirst : first = true ↔ done = [])
    (hbefore : done ≠ [] → RowHolds uc query scalars done before)
    (hne : done ++ needles ≠ []) :
    match matchRows uc query nodes first needles before with
    | some last => RowHolds uc query scalars (done ++ needles) last
    | none => ∀ s, ¬WindowMatches uc query (done ++ needles) scalars s := by
  induction needles generalizing done before first with
  | nil =>
    rw [append_nil] at hne ⊢
    exact hbefore hne
  | cons needle needles ih =>
    have hrow := matchRow_holds hchain needle hfirst hbefore
    rw [matchRows, ← singleton_append, ← append_assoc]
    by_cases hnone : ((matchRow uc query nodes before first needle).all isNone) = true
    · simp only [hnone, if_true]
      intro s hmatch
      have hshort : WindowMatches uc query (done ++ [needle]) scalars s := by
        intro i other hother
        refine hmatch i other ?_
        rw [List.getElem?_append_left (List.getElem?_eq_some_iff.mp hother).1]
        exact hother
      obtain ⟨scalar, hscalar, -⟩ := hshort 0 ((done ++ [needle]).get ⟨0, by simp⟩) (by simp)
      have hheld := (hrow.holds (s + done.length) scalar.bytes.start).mpr
        ⟨s, by simp; omega, hshort, scalar, hscalar, rfl⟩
      have := all_eq_true.mp hnone _ (mem_of_getElem? hheld)
      cases this
    · simp only [hnone]
      exact ih (by simp) (fun _ => hrow) (by simp)

/-! ## All matches of a region -/

def windowRange (scalars : List PlacedScalar) (n start : Nat) : Range :=
  ⟨(scalars[start]?.map (fun s => s.bytes.start)).getD 0,
    (scalars[start + n - 1]?.map (fun s => s.bytes.stop)).getD 0⟩

def regionScalars (scalars : List PlacedScalar) (region : Range) : List PlacedScalar :=
  (scalars.drop region.start).take (region.stop - region.start)

theorem regionScalars_getElem? {i : Nat} : (regionScalars scalars region)[i]? =
    if i < region.stop - region.start then scalars[region.start + i]? else none := by
  rw [regionScalars, getElem?_take, getElem?_drop]

theorem isMatch_iff (hpos : 0 < query.scalars.length) :
    WindowMatches uc query query.scalars (regionScalars scalars region) s ↔
      IsMatch uc query scalars region (region.start + s) := by
  constructor
  · intro h
    obtain ⟨last, hlast, -⟩ := h (query.scalars.length - 1)
      (query.scalars.get ⟨query.scalars.length - 1, by omega⟩) (getElem?_eq_getElem _)
    rw [regionScalars_getElem?] at hlast
    split at hlast
    · next hlt =>
      refine ⟨Nat.le_add_right _ _, by omega, fun i needle hneedle => ?_⟩
      obtain ⟨scalar, hscalar, hequal⟩ := h i needle hneedle
      rw [regionScalars_getElem?] at hscalar
      split at hscalar
      · exact ⟨scalar, by rw [Nat.add_assoc]; exact hscalar, hequal⟩
      · cases hscalar
    · cases hlast
  · intro h i needle hneedle
    obtain ⟨scalar, hscalar, hequal⟩ := h.window i needle hneedle
    have hi := (List.getElem?_eq_some_iff.mp hneedle).1
    have hstop := h.stop
    refine ⟨scalar, ?_, hequal⟩
    rw [regionScalars_getElem?, if_pos (by omega), ← Nat.add_assoc]
    exact hscalar

/-- All matches of a region in their order, also those that meet. -/
structure AllMatches (uc : UnicodeCase) (query : Query) (scalars : List PlacedScalar)
    (region : Range) (starts : List Nat) : Prop where
  ascending : starts.Pairwise (· < ·)
  mem_iff : ∀ s, s ∈ starts ↔ IsMatch uc query scalars region s

variable {α : Type} {n : Nat}

theorem filterMap_range (f : Nat → Option α) {len : Nat} (hnone : ∀ i, i + 1 < n → f i = none)
    (hpos : 0 < n) (hn : n ≤ len) :
    (range len).filterMap f = (range (len + 1 - n)).filterMap (fun s => f (s + n - 1)) := by
  have hlen : len = (n - 1) + (len + 1 - n) := by omega
  have hfront : (range (n - 1)).filterMap f = [] := by
    refine filterMap_eq_nil_iff.mpr (fun i hi => hnone i ?_)
    have := mem_range.mp hi
    omega
  conv_lhs => rw [hlen]
  rw [range_add, filterMap_append, hfront, nil_append, filterMap_map]
  refine filterMap_congr (fun s _ => ?_)
  rw [Function.comp_apply]
  congr 1
  omega

theorem zip_filterMap {β γ : Type} (xs : List α) (ys : List β) (hlength : ys.length = xs.length)
    (f : α × β → Option γ) : (xs.zip ys).filterMap f = (range xs.length).filterMap (fun i =>
      xs[i]?.bind (fun x => ys[i]?.bind (fun y => f (x, y)))) := by
  induction xs generalizing ys with
  | nil => simp
  | cons x xs ih =>
    cases ys with
    | nil => cases hlength
    | cons y ys =>
      rw [zip_cons_cons, filterMap_cons, ih ys (Nat.succ.inj hlength), length_cons,
        range_succ_eq_map, filterMap_cons, filterMap_map]
      rfl

theorem filterMap_if {β : Type} (p : α → Bool) (g : α → β) (xs : List α) :
    xs.filterMap (fun x => if p x then some (g x) else none) = (xs.filter p).map g := by
  rw [← filterMap_filter]
  exact congrFun filterMap_eq_map (xs.filter p)

theorem windowRange_region {first last : PlacedScalar}
    (hfirst : (regionScalars scalars region)[s]? = some first)
    (hlast : (regionScalars scalars region)[s + n - 1]? = some last) (hpos : 0 < n) :
    windowRange scalars n (region.start + s) = ⟨first.bytes.start, last.bytes.stop⟩ := by
  rw [regionScalars_getElem?] at hfirst hlast
  split at hfirst
  · split at hlast
    · have hplace : region.start + s + n - 1 = region.start + (s + n - 1) := by omega
      rw [windowRange, hfirst, hplace, hlast]
      rfl
    · cases hlast
  · cases hfirst

theorem RowHolds.matches {last : List (Option Nat)}
    (hrow : RowHolds uc query (regionScalars scalars region) query.scalars last)
    (hchain : IsChain nodes (regionScalars scalars region)) (hpos : 0 < query.scalars.length)
    (hs : s + query.scalars.length ≤ (regionScalars scalars region).length) :
    (nodes[s + query.scalars.length - 1]?.bind (fun node =>
      last[s + query.scalars.length - 1]?.bind (fun held =>
        held.map (fun first => (⟨first, node.scalar.bytes.stop⟩ : Range))))) =
      if matchesAt uc query (regionScalars scalars region) s then
        some (windowRange scalars query.scalars.length (region.start + s)) else none := by
  have hlength : nodes.length = (regionScalars scalars region).length := by
    rw [← hchain.scalar, length_map]
  have hnode : nodes[s + query.scalars.length - 1]? =
      some (nodes.get ⟨s + query.scalars.length - 1, by omega⟩) := getElem?_eq_getElem _
  have hheld : last[s + query.scalars.length - 1]? =
      some (last.get ⟨s + query.scalars.length - 1, by rw [hrow.length]; omega⟩) :=
    getElem?_eq_getElem _
  have hend : (regionScalars scalars region)[s + query.scalars.length - 1]? =
      some (nodes.get ⟨s + query.scalars.length - 1, by omega⟩).scalar := by
    conv_lhs => rw [← hchain.scalar]
    rw [getElem?_map, hnode]
    rfl
  rw [hnode, bind_some]
  split
  · next hmatch =>
    have hwindow := matchesAt_iff.mp hmatch
    obtain ⟨first, hfirst, -⟩ := hwindow 0 (query.scalars.get ⟨0, hpos⟩) (getElem?_eq_getElem _)
    rw [Nat.add_zero] at hfirst
    have hplace : s + query.scalars.length - 1 + 1 = s + query.scalars.length := by omega
    rw [(hrow.holds _ first.bytes.start).mpr ⟨s, hplace, hwindow, first, hfirst, rfl⟩,
      windowRange_region hfirst hend hpos]
    rfl
  · next hmiss =>
    rw [hheld, bind_some, map_eq_none_iff]
    by_contra hsome
    obtain ⟨start, hstart⟩ := ne_none_iff_exists'.mp hsome
    rw [hstart] at hheld
    obtain ⟨s', hs', hwindow, -⟩ := (hrow.holds _ start).mp hheld
    obtain rfl : s = s' := by omega
    exact hmiss (matchesAt_iff.mpr hwindow)

theorem branchMatches_eq
    (hchain : IsChain nodes (regionScalars scalars region)) (hpos : 0 < query.scalars.length)
    (hlong : query.scalars.length ≤ nodes.length) : ∃ starts,
      AllMatches uc query scalars region starts ∧
      branchMatches uc query nodes = starts.map (windowRange scalars query.scalars.length) := by
  have hlength : nodes.length = (regionScalars scalars region).length := by
    rw [← hchain.scalar, length_map]
  have hrows := @matchRows_holds uc query _ nodes hchain query.scalars []
    (nodes.map (fun _ => none)) true (by simp) (fun h => absurd rfl h)
    (by simpa using length_pos_iff.mp hpos)
  rw [nil_append] at hrows
  rw [branchMatches]
  cases hlast : matchRows uc query nodes true query.scalars (nodes.map (fun _ => none)) with
  | none =>
    rw [hlast] at hrows
    refine ⟨[], ⟨.nil, fun s => iff_of_false not_mem_nil (fun h => ?_)⟩, rfl⟩
    obtain ⟨s, rfl⟩ := Nat.exists_eq_add_of_le h.le
    exact hrows s ((isMatch_iff hpos).mpr h)
  | some last =>
    rw [hlast] at hrows
    refine ⟨((range (nodes.length + 1 - query.scalars.length)).filter
      (matchesAt uc query (regionScalars scalars region))).map (region.start + ·),
      ⟨?_, fun s => ?_⟩, ?_⟩
    · refine pairwise_map.mpr ((pairwise_lt_range.filter _).imp (fun hlt => ?_))
      omega
    · rw [List.mem_map]
      constructor
      · rintro ⟨s, hs, rfl⟩
        exact (isMatch_iff hpos).mp (matchesAt_iff.mp (List.mem_filter.mp hs).2)
      intro h
      obtain ⟨s, rfl⟩ := Nat.exists_eq_add_of_le h.le
      have hwindow := (isMatch_iff hpos).mpr h
      obtain ⟨final, hfinal, -⟩ := hwindow (query.scalars.length - 1)
        (query.scalars.get ⟨query.scalars.length - 1, by omega⟩) (getElem?_eq_getElem _)
      have hlt := (List.getElem?_eq_some_iff.mp hfinal).1
      refine ⟨s, List.mem_filter.mpr ⟨List.mem_range.mpr ?_, matchesAt_iff.mpr hwindow⟩, rfl⟩
      omega
    · dsimp only
      rw [zip_filterMap _ _ (hrows.length.trans hlength.symm), filterMap_range _ ?_ hpos hlong,
        List.map_map, ← filterMap_if]
      · refine List.filterMap_congr (fun s hs => hrows.matches hchain hpos ?_)
        have := List.mem_range.mp hs
        omega
      · intro i hi
        by_contra hsome
        obtain ⟨range, hrange⟩ := ne_none_iff_exists'.mp hsome
        obtain ⟨node, -, hheld⟩ := bind_eq_some_iff.mp hrange
        obtain ⟨held, hheld, hfirst⟩ := bind_eq_some_iff.mp hheld
        obtain ⟨start, rfl, -⟩ := map_eq_some_iff.mp hfirst
        obtain ⟨s, hs, -⟩ := (hrows.holds i start).mp hheld
        omega

/-- Of matches in their order the ones that do not begin in front of the last one's end, where both
were authored. -/
def keepAuthored (query : Query) (candidate : Candidate) (scalars : List PlacedScalar) :
    Nat → List Nat → Option (List Occurrence)
  | _, [] => some []
  | authoredEnd, s :: starts =>
    (occurrenceAt query candidate scalars s).bind (fun occurrence =>
      match occurrence.ranges.head?, occurrence.ranges.getLast? with
      | some first, some last =>
        if first.start < authoredEnd then keepAuthored query candidate scalars authoredEnd starts
        else (keepAuthored query candidate scalars last.stop starts).map
          (fun kept => occurrence :: kept)
      | _, _ => none)

theorem takeWhile_length {p : α → Bool} {xs : List α}
    (hp : ∀ (i : Nat) (x : α), xs[i]? = some x → (p x = true ↔ i < n)) (hn : n ≤ xs.length) :
    (xs.takeWhile p).length = n := by
  induction xs generalizing n with
  | nil => simpa using (hn.antisymm (Nat.zero_le n)).symm
  | cons x xs ih =>
    rw [takeWhile_cons]
    cases n with
    | zero =>
      have hx := hp 0 x rfl
      rw [if_neg (by simpa using hx)]
      rfl
    | succ n =>
      rw [if_pos ((hp 0 x rfl).mpr (Nat.succ_pos n)), length_cons,
        ih (fun i y hy => (hp (i + 1) y hy).trans (Nat.succ_lt_succ_iff)) (Nat.le_of_succ_le_succ hn)]

theorem windowRange_of_isMatch (hpos : 0 < query.scalars.length)
    (h : IsMatch uc query scalars region s) : ∃ first last, scalars[s]? = some first ∧
      scalars[s + query.scalars.length - 1]? = some last ∧
      windowRange scalars query.scalars.length s = ⟨first.bytes.start, last.bytes.stop⟩ := by
  obtain ⟨first, hfirst, -⟩ := h.window 0 (query.scalars.get ⟨0, hpos⟩) (getElem?_eq_getElem _)
  obtain ⟨last, hlast, -⟩ := h.window (query.scalars.length - 1)
    (query.scalars.get ⟨query.scalars.length - 1, by omega⟩) (getElem?_eq_getElem _)
  rw [Nat.add_zero] at hfirst
  rw [← Nat.add_sub_assoc hpos] at hlast
  exact ⟨first, last, hfirst, hlast, by rw [windowRange, hfirst, hlast]; rfl⟩

theorem windowRange_le (hasc : Ascending scalars) (hpos : 0 < query.scalars.length)
    (hs : IsMatch uc query scalars region s) (ht : IsMatch uc query scalars region t)
    (hlt : s < t) : rangeLe (windowRange scalars query.scalars.length s)
      (windowRange scalars query.scalars.length t) = true := by
  obtain ⟨first, last, hfirst, -, hrange⟩ := windowRange_of_isMatch hpos hs
  obtain ⟨first', last', hfirst', -, hrange'⟩ := windowRange_of_isMatch hpos ht
  have hwithin := hasc.within _ _ hfirst
  have hle := hasc.stop_le hfirst hfirst' hlt
  rw [hrange, hrange', rangeLe, if_neg (by simp only; omega), decide_eq_true_eq]
  exact Nat.lt_of_lt_of_le hwithin hle

section Positions

variable (hasc : Ascending scalars) (hpos : 0 < query.scalars.length)
  (h : IsMatch uc query scalars region s) (hstop : region.stop ≤ scalars.length)
include hasc hpos h hstop

theorem skipTo_match {cursor : Nat} (hcursor : cursor ≤ s) : skipTo scalars region cursor
    (windowRange scalars query.scalars.length s).start = s := by
  obtain ⟨first, last, hfirst, -, hrange⟩ := windowRange_of_isMatch hpos h
  have hs := h.stop
  rw [skipTo, hrange, takeWhile_length (n := s - cursor)]
  · omega
  · intro i scalar hscalar
    rw [getElem?_drop, getElem?_take] at hscalar
    split at hscalar
    · have hiff := hasc.start_lt_stop_iff hscalar hfirst
      rw [decide_eq_true_eq, ← Nat.not_lt, hiff]
      omega
    · cases hscalar
  · rw [length_drop, length_take, Nat.min_eq_left hstop]
    omega

theorem positionsOf_match : positionsOf scalars region s
    (windowRange scalars query.scalars.length s) = range' s query.scalars.length := by
  obtain ⟨first, last, -, hlast, hrange⟩ := windowRange_of_isMatch hpos h
  have hs := h.stop
  rw [positionsOf, hrange, takeWhile_length (n := query.scalars.length)]
  · intro i scalar hscalar
    rw [getElem?_drop, getElem?_take] at hscalar
    split at hscalar
    · rw [decide_eq_true_eq, hasc.start_lt_stop_iff hlast hscalar]
      omega
    · cases hscalar
  · rw [length_drop, length_take, Nat.min_eq_left hstop]
    omega

end Positions

variable {starts : List Nat}

theorem keepMatches_eq (hasc : Ascending scalars) (hpos : 0 < query.scalars.length)
    (hstop : region.stop ≤ scalars.length) {authoredEnd cursor : Nat}
    (hmatch : ∀ s ∈ starts, IsMatch uc query scalars region s)
    (hascending : starts.Pairwise (· < ·)) (hcursor : ∀ s ∈ starts, cursor ≤ s) :
    keepMatches candidate scalars region authoredEnd cursor
      (starts.map (windowRange scalars query.scalars.length)) =
        keepAuthored query candidate scalars authoredEnd starts := by
  induction starts generalizing authoredEnd cursor with
  | nil => rfl
  | cons s starts ih =>
    obtain ⟨hfar, hrest⟩ := pairwise_cons.mp hascending
    have hs := hmatch s mem_cons_self
    have hih : ∀ {authoredEnd : Nat}, keepMatches candidate scalars region authoredEnd s
        (starts.map (windowRange scalars query.scalars.length)) =
          keepAuthored query candidate scalars authoredEnd starts := fun {_} =>
      ih (fun t ht => hmatch t (mem_cons_of_mem _ ht)) hrest (fun t ht => Nat.le_of_lt (hfar t ht))
    rw [map_cons, keepMatches, keepAuthored, skipTo_match hasc hpos hs hstop (hcursor s mem_cons_self)]
    simp only [positionsOf_match hasc hpos hs hstop, hih]
    rfl

theorem graphFrom_plain {startByte endByte : Nat} {mapping : List Mapping}
    (hplain : ∀ entry ∈ mapping, entry.alternative = []) (offset : Nat) (nodes : List BranchNode)
    (previous : Option Nat × Option Nat) :
    graphFrom uc query candidate startByte endByte mapping offset nodes previous =
      appendPlain candidate offset endByte nodes previous := by
  induction mapping with
  | nil => rfl
  | cons entry mapping ih =>
    rw [graphFrom, if_pos (.inl (hplain entry mem_cons_self))]
    exact ih (fun other hother => hplain other (mem_cons_of_mem _ hother))

/-- The scalars of a slice, moved to its place, are those of the region. -/
theorem decode_slice (text : Text) {start stop : Nat} :
    (decode ((text.drop start).take (stop - start))).map (fun s => (⟨s.value,
      ⟨byteLength (text.take start) + s.bytes.start, byteLength (text.take start) + s.bytes.stop⟩⟩ :
        PlacedScalar)) = regionScalars (decode text) ⟨start, stop⟩ := by
  have hlength : ∀ i, i ≤ stop - start → byteLength (text.take start) +
      byteLength (((text.drop start).take (stop - start)).take i) =
        byteLength (text.take (start + i)) := by
    intro i hi
    have hsum := byteLength_drop_take text (Nat.le_add_right start i)
    have hle := byteLength_take_le text (Nat.le_add_right start i)
    rw [Nat.add_sub_cancel_left] at hsum
    rw [take_take, Nat.min_eq_left hi, hsum]
    omega
  refine ext_getElem? (fun i => ?_)
  rw [getElem?_map, decode_getElem?, Option.map_map, regionScalars_getElem?, getElem?_take]
  by_cases hi : i < stop - start
  · rw [if_pos hi, if_pos hi, getElem?_drop, decode_getElem?]
    refine congrFun (congrArg Option.map (funext (fun value => ?_))) _
    rw [Function.comp_apply, hlength i (Nat.le_of_lt hi), hlength (i + 1) hi]
    rfl
  · rw [if_neg hi, if_neg hi]
    rfl

theorem emojiGraph_plain (hplain : hasEmoji candidate = false)
    (hregion : region.start < region.stop) {first last : PlacedScalar}
    (hfirst : (decode candidate.text)[region.start]? = some first)
    (hlast : (decode candidate.text)[region.stop - 1]? = some last) : ∃ nodes ends,
      emojiGraph uc query candidate first.bytes.start last.bytes.stop = some (nodes, ends) ∧
        IsChain nodes (regionScalars (decode candidate.text) region) := by
  have halternatives : ∀ entry ∈ candidate.mapping, entry.alternative = [] := by
    intro entry hentry
    have := any_eq_false.mp hplain entry hentry
    simpa using this
  have hlt := ((decode_ascending candidate.text).start_lt_stop_iff hlast hfirst).mpr (by omega)
  rw [decode_getElem?, map_eq_some_iff] at hfirst hlast
  obtain ⟨value, -, rfl⟩ := hfirst
  obtain ⟨value', -, rfl⟩ := hlast
  rw [Nat.sub_add_cancel (Nat.one_le_of_lt hregion)] at hlt ⊢
  rw [emojiGraph, graphFrom_plain halternatives, appendPlain, if_pos hlt,
    slice_byteLength _ (Nat.le_of_lt hregion)]
  refine ⟨_, _, rfl, ?_⟩
  obtain ⟨hscalar, hfront, hnext⟩ := @branchNodes_isChain
    ⟨byteLength (candidate.text.take region.start), byteLength (candidate.text.take region.stop)⟩
    (decode ((candidate.text.drop region.start).take (region.stop - region.start))) 0 (none, none)
  refine ⟨?_, hfront, fun i node hnode => ?_⟩
  · exact hscalar.trans (decode_slice candidate.text)
  · rw [hnext i node hnode, Nat.zero_add]

/-- The search over the graph keeps, of all matches, the ones that were authored apart. -/
theorem scanEmojiLiteral_eq (hpos : 0 < query.scalars.length) (hplain : hasEmoji candidate = false)
    (hregion : region.start ≤ region.stop) (hstop : region.stop ≤ (decode candidate.text).length) :
    ∃ starts, AllMatches uc query (decode candidate.text) region starts ∧
      scanEmojiLiteral uc query candidate (decode candidate.text) region =
        keepAuthored query candidate (decode candidate.text) 0 starts := by
  have hnone : region.stop - region.start < query.scalars.length →
      AllMatches uc query (decode candidate.text) region [] := fun hshort =>
    ⟨.nil, fun s => iff_of_false not_mem_nil (fun h => by
      have hle := h.le
      have hs := h.stop
      omega)⟩
  rw [scanEmojiLiteral]
  split
  · exact ⟨[], hnone (by omega), rfl⟩
  rename_i hne
  have hlt : region.start < region.stop := by omega
  have hfirst := getElem?_eq_getElem (Nat.lt_of_lt_of_le hlt hstop)
  have hlast : (decode candidate.text)[region.stop - 1]? = some _ := getElem?_eq_getElem (by omega)
  obtain ⟨nodes, ends, hgraph, hchain⟩ := @emojiGraph_plain uc query _ _ hplain hlt _ _ hfirst hlast
  have hlength : nodes.length = region.stop - region.start := by
    have := congrArg length hchain.scalar
    rw [length_map, regionScalars, length_take, length_drop] at this
    omega
  rw [hfirst, hlast]
  simp only [hgraph, bind_some]
  split
  · exact ⟨[], hnone (by omega), rfl⟩
  rename_i hlong
  obtain ⟨starts, hall, hmatches⟩ := branchMatches_eq hchain hpos (Nat.not_lt.mp hlong)
  refine ⟨starts, hall, ?_⟩
  rw [hmatches, mergeSort_of_pairwise]
  · exact keepMatches_eq (decode_ascending _) hpos hstop (fun s hs => (hall.mem_iff s).mp hs)
      hall.ascending (fun s hs => ((hall.mem_iff s).mp hs).le)
  · refine pairwise_map.mpr (hall.ascending.imp_of_mem (fun {s t} hs ht hst => ?_))
    exact windowRange_le (decode_ascending _) hpos ((hall.mem_iff s).mp hs) ((hall.mem_iff t).mp ht) hst

/-! ## The two searches agree -/

/-- From where a match was authored up to where. -/
def authoredRange (query : Query) (candidate : Candidate) (scalars : List PlacedScalar) (s : Nat) :
    Option Range :=
  (occurrenceAt query candidate scalars s).bind (fun occurrence =>
    match occurrence.ranges.head?, occurrence.ranges.getLast? with
    | some first, some last => some ⟨first.start, last.stop⟩
    | _, _ => none)

/-- Matches meet in the text exactly when they meet where they were authored. -/
structure MapsApart (uc : UnicodeCase) (query : Query) (candidate : Candidate)
    (scalars : List PlacedScalar) (region : Range) : Prop where
  authored : ∀ s, IsMatch uc query scalars region s →
    ∃ range, authoredRange query candidate scalars s = some range
  apart : ∀ s t, IsMatch uc query scalars region s → IsMatch uc query scalars region t →
    s < t → ∀ range range', authoredRange query candidate scalars s = some range →
      authoredRange query candidate scalars t = some range' →
        (range'.start < range.stop ↔ t < s + query.scalars.length)

/-- Of matches in their order the ones that begin at the limit or behind it. -/
def keepApart (n : Nat) : Nat → List Nat → List Nat
  | _, [] => []
  | limit, s :: starts =>
    if s < limit then keepApart n limit starts else s :: keepApart n (s + n) starts

theorem keepApart_spec (n : Nat) {limit : Nat} {starts : List Nat}
    (hascending : starts.Pairwise (· < ·)) : (∀ s ∈ keepApart n limit starts, s ∈ starts ∧ limit ≤ s) ∧
      (keepApart n limit starts).Pairwise (fun s t => s + n ≤ t) ∧
      ∀ t ∈ starts, limit ≤ t → 0 < n → ∃ s ∈ keepApart n limit starts, s ≤ t ∧ t < s + n := by
  induction starts generalizing limit with
  | nil => simp [keepApart]
  | cons s starts ih =>
    obtain ⟨hfar, hrest⟩ := pairwise_cons.mp hascending
    rw [keepApart]
    split
    · next hlt =>
      obtain ⟨hmem, hapart, hmeets⟩ := @ih limit hrest
      refine ⟨fun t ht => ⟨mem_cons_of_mem _ (hmem t ht).1, (hmem t ht).2⟩, hapart, fun t ht hle => ?_⟩
      obtain rfl | ht := mem_cons.mp ht
      · omega
      · exact hmeets t ht hle
    · next hle =>
      obtain ⟨hmem, hapart, hmeets⟩ := @ih (s + n) hrest
      refine ⟨fun t ht => ?_, pairwise_cons.mpr ⟨fun t ht => (hmem t ht).2, hapart⟩,
        fun t ht hlimit hpos => ?_⟩
      · obtain rfl | ht := mem_cons.mp ht
        · exact ⟨mem_cons_self, Nat.not_lt.mp hle⟩
        · obtain ⟨hmem, hlimit⟩ := hmem t ht
          exact ⟨mem_cons_of_mem _ hmem, by omega⟩
      · obtain rfl | ht := mem_cons.mp ht
        · exact ⟨t, mem_cons_self, Nat.le_refl t, by omega⟩
        by_cases hlt : t < s + n
        · exact ⟨s, mem_cons_self, Nat.le_of_lt (hfar t ht), hlt⟩
        · obtain ⟨u, hu, hmeets⟩ := hmeets t ht (Nat.not_lt.mp hlt) hpos
          exact ⟨u, mem_cons_of_mem _ hu, hmeets⟩

theorem keepApart_leftmost (hpos : 0 < query.scalars.length)
    (h : AllMatches uc query scalars region starts) :
    Leftmost uc query scalars region (keepApart query.scalars.length 0 starts) := by
  obtain ⟨hmem, hapart, hmeets⟩ := @keepApart_spec query.scalars.length 0 _ h.ascending
  exact ⟨fun s hs => (h.mem_iff s).mp (hmem s hs).1, hapart,
    fun t ht => hmeets t ((h.mem_iff t).mpr ht) (Nat.zero_le t) hpos⟩

theorem authoredRange_some {range : Range}
    (h : authoredRange query candidate scalars s = some range) : ∃ occurrence first last,
      occurrenceAt query candidate scalars s = some occurrence ∧
      occurrence.ranges.head? = some first ∧ occurrence.ranges.getLast? = some last ∧
      range = ⟨first.start, last.stop⟩ := by
  obtain ⟨occurrence, hoccurrence, hrange⟩ := bind_eq_some_iff.mp h
  split at hrange
  · next first last hfirst hlast =>
    exact ⟨occurrence, first, last, hoccurrence, hfirst, hlast, (some.inj hrange).symm⟩
  · cases hrange

/-- Where the last kept match ends in the text tells the same as where it was authored up to. -/
theorem keepAuthored_eq (h : MapsApart uc query candidate scalars region)
    {authoredEnd limit : Nat} (hmatch : ∀ s ∈ starts, IsMatch uc query scalars region s)
    (hascending : starts.Pairwise (· < ·))
    (hlimit : ∀ s ∈ starts, ∀ range, authoredRange query candidate scalars s = some range →
      (range.start < authoredEnd ↔ s < limit)) :
    keepAuthored query candidate scalars authoredEnd starts =
      (keepApart query.scalars.length limit starts).mapM (occurrenceAt query candidate scalars) := by
  induction starts generalizing authoredEnd limit with
  | nil => rfl
  | cons s starts ih =>
    obtain ⟨hfar, hrest⟩ := pairwise_cons.mp hascending
    have hs := hmatch s mem_cons_self
    obtain ⟨range, hrange⟩ := h.authored s hs
    have hiff := hlimit s mem_cons_self range hrange
    obtain ⟨occurrence, first, last, hoccurrence, hfirst, hlast, rfl⟩ := authoredRange_some hrange
    rw [keepAuthored, hoccurrence, bind_some, hfirst, hlast, keepApart]
    simp only at hiff ⊢
    by_cases hlt : s < limit
    · rw [if_pos hlt, if_pos (hiff.mpr hlt)]
      exact ih (fun t ht => hmatch t (mem_cons_of_mem _ ht)) hrest
        (fun t ht => hlimit t (mem_cons_of_mem _ ht))
    · rw [if_neg hlt, if_neg (fun hstart => hlt (hiff.mp hstart)), mapM_cons, hoccurrence,
        ih (fun t ht => hmatch t (mem_cons_of_mem _ ht)) hrest (fun t ht range' hrange' =>
          h.apart s t hs (hmatch t (mem_cons_of_mem _ ht)) (hfar t ht) _ range' hrange hrange')]
      cases mapM (occurrenceAt query candidate scalars)
        (keepApart query.scalars.length (s + query.scalars.length) starts) <;> rfl

theorem scanEmojiLiteral_agrees (hpos : 0 < query.scalars.length)
    (hplain : hasEmoji candidate = false) (hregion : region.start ≤ region.stop)
    (hstop : region.stop ≤ (decode candidate.text).length)
    (h : MapsApart uc query candidate (decode candidate.text) region) :
    scanEmojiLiteral uc query candidate (decode candidate.text) region =
      scanLiteral uc query candidate (decode candidate.text) region := by
  obtain ⟨all, hall, hemoji⟩ := @scanEmojiLiteral_eq uc _ _ _ hpos hplain hregion hstop
  obtain ⟨starts, hleftmost, hliteral⟩ :=
    @scanLiteral_eq uc _ hpos candidate (decode candidate.text) region
  rw [hemoji, hliteral, ← (keepApart_leftmost hpos hall).unique hpos hleftmost]
  exact keepAuthored_eq h (fun s hs => (hall.mem_iff s).mp hs) hall.ascending
    (fun s _ range _ => by simp)

section

variable (hasc : Ascending scalars) (hpos : 0 < query.scalars.length)
  (hmapping : candidate.mapping = [])
include hasc hpos hmapping

theorem authoredRange_unmapped (h : IsMatch uc query scalars region s) :
    ∃ first last, scalars[s]? = some first ∧ scalars[s + query.scalars.length - 1]? = some last ∧
      authoredRange query candidate scalars s = some ⟨first.bytes.start, last.bytes.stop⟩ := by
  obtain ⟨first, last, hfirst, hlast, -⟩ := windowRange_of_isMatch hpos h
  refine ⟨first, last, hfirst, hlast, ?_⟩
  obtain ⟨n, hn⟩ : ∃ n, query.scalars.length = n + 1 := ⟨_, (Nat.succ_pred (by omega)).symm⟩
  rw [hn] at hlast
  have hmerged := mergedScalarRanges_range' hasc hfirst hlast
  rw [authoredRange, occurrenceAt, hn, range'_succ, makeOccurrence, hfirst, map_some,
    bind_some, ← range'_succ]
  simp only [hmerged, hmapping, mapRanges, if_true]
  rfl

theorem mapsApart_unmapped : MapsApart uc query candidate scalars region := by
  refine ⟨fun s hs => ?_, fun s t hs ht hlt range range' hrange hrange' => ?_⟩
  · obtain ⟨first, last, -, -, hrange⟩ := authoredRange_unmapped hasc hpos hmapping hs
    exact ⟨_, hrange⟩
  obtain ⟨first, last, -, hlast, heq⟩ := authoredRange_unmapped hasc hpos hmapping hs
  obtain ⟨first', last', hfirst', -, heq'⟩ := authoredRange_unmapped hasc hpos hmapping ht
  obtain rfl := some.inj (heq.symm.trans hrange)
  obtain rfl := some.inj (heq'.symm.trans hrange')
  simp only
  rw [hasc.start_lt_stop_iff hlast hfirst']
  omega

end

/-- The leftmost matches of all regions, none of which crosses into another. -/
structure LeftmostIn (uc : UnicodeCase) (query : Query) (scalars : List PlacedScalar)
    (regions : List Range) (starts : List Nat) : Prop where
  isMatch : ∀ s ∈ starts, ∃ region ∈ regions, IsMatch uc query scalars region s
  apart : starts.Pairwise (fun s t => s + query.scalars.length ≤ t)
  leftmost : ∀ region ∈ regions, ∀ t, IsMatch uc query scalars region t →
    ∃ s ∈ starts, IsMatch uc query scalars region s ∧ s ≤ t ∧ t < s + query.scalars.length

theorem scanRegions_leftmost (hpos : 0 < query.scalars.length) (candidate : Candidate)
    (scalars : List PlacedScalar) {regions : List Range}
    (hapart : regions.Pairwise (fun a b => a.stop ≤ b.start)) : ∃ starts,
      LeftmostIn uc query scalars regions starts ∧
      (regions.mapM (scanLiteral uc query candidate scalars)).map flatten =
        starts.mapM (occurrenceAt query candidate scalars) := by
  induction regions with
  | nil =>
    exact ⟨[], ⟨forall_mem_nil _, .nil, forall_mem_nil _⟩, rfl⟩
  | cons region regions ih =>
    obtain ⟨hfar, hrest⟩ := pairwise_cons.mp hapart
    obtain ⟨later, hlater, hscan⟩ := ih hrest
    obtain ⟨starts, hstarts, hregion⟩ := @scanLiteral_eq uc _ hpos candidate scalars region
    refine ⟨starts ++ later, ⟨fun s hs => ?_, pairwise_append.mpr ⟨hstarts.apart, hlater.apart,
      fun s hs t ht => ?_⟩, fun other hother t ht => ?_⟩, ?_⟩
    · obtain hs | hs := mem_append.mp hs
      · exact ⟨region, mem_cons_self, hstarts.isMatch s hs⟩
      · obtain ⟨other, hother, hmatch⟩ := hlater.isMatch s hs
        exact ⟨other, mem_cons_of_mem _ hother, hmatch⟩
    · obtain ⟨other, hother, hmatch⟩ := hlater.isMatch t ht
      exact Nat.le_trans (hstarts.isMatch s hs).stop (Nat.le_trans (hfar other hother) hmatch.le)
    · obtain rfl | hother := mem_cons.mp hother
      · obtain ⟨s, hs, hmeets⟩ := hstarts.leftmost t ht
        exact ⟨s, mem_append_left _ hs, hstarts.isMatch s hs, hmeets⟩
      · obtain ⟨s, hs, hmeets⟩ := hlater.leftmost other hother t ht
        exact ⟨s, mem_append_right _ hs, hmeets⟩
    · rw [mapM_cons, mapM_append, hregion, ← hscan]
      cases starts.mapM (occurrenceAt query candidate scalars) with
      | none => rfl
      | some found => cases regions.mapM (scanLiteral uc query candidate scalars) <;> rfl

theorem occurrenceAt_some (hpos : 0 < query.scalars.length) (candidate : Candidate)
    (h : IsMatch uc query scalars region s) :
    ∃ occurrence, occurrenceAt query candidate scalars s = some occurrence ∧
      occurrence.corpusOrder = candidate.corpusOrder := by
  obtain ⟨first, -, hfirst, -, -⟩ := windowRange_of_isMatch hpos h
  obtain ⟨n, hn⟩ : ∃ n, query.scalars.length = n + 1 := ⟨_, (Nat.succ_pred (by omega)).symm⟩
  rw [occurrenceAt, hn, range'_succ, makeOccurrence, hfirst]
  exact ⟨_, rfl, rfl⟩

theorem mapM_some {α β : Type} {f : α → Option β} {xs : List α} (h : ∀ x ∈ xs, ∃ y, f x = some y) :
    ∃ ys, xs.mapM f = some ys ∧ List.Forall₂ (fun x y => f x = some y) xs ys := by
  induction xs with
  | nil => exact ⟨[], rfl, .nil⟩
  | cons x xs ih =>
    obtain ⟨y, hy⟩ := h x mem_cons_self
    obtain ⟨ys, hys, hall⟩ := ih (fun z hz => h z (mem_cons_of_mem _ hz))
    exact ⟨y :: ys, by rw [mapM_cons, hy, hys]; rfl, .cons hy hall⟩

theorem found_sorted (hasc : Ascending scalars) (hpos : 0 < query.scalars.length)
    (hmapping : candidate.mapping = []) {regions : List Range} {occurrences : List Occurrence}
    (hleftmost : LeftmostIn uc query scalars regions starts)
    (hfound : List.Forall₂ (fun s occurrence =>
      occurrenceAt query candidate scalars s = some occurrence) starts occurrences) :
    occurrences.Pairwise (fun left right => (!literalLess right left) = true) := by
  have hmatch := hleftmost.isMatch
  have hapart := hleftmost.apart
  clear hleftmost
  have hplace : ∀ {s : Nat} {occurrence : Occurrence},
      (∃ region ∈ regions, IsMatch uc query scalars region s) →
        occurrenceAt query candidate scalars s = some occurrence →
          occurrence.corpusOrder = candidate.corpusOrder ∧ ∃ first scalar,
            occurrence.ranges.head? = some first ∧ scalars[s]? = some scalar ∧
              first.start = scalar.bytes.start := by
    rintro s occurrence ⟨region, -, hs⟩ hoccurrence
    obtain ⟨other, hother, horder⟩ := occurrenceAt_some hpos candidate hs
    obtain rfl := some.inj (hoccurrence.symm.trans hother)
    obtain ⟨scalar, final, hscalar, -, hrange⟩ := authoredRange_unmapped hasc hpos hmapping hs
    obtain ⟨other, first, last, hother', hfirst, -, heq⟩ := authoredRange_some hrange
    obtain rfl := some.inj (hoccurrence.symm.trans hother')
    exact ⟨horder, first, scalar, hfirst, hscalar, (congrArg Range.start heq).symm⟩
  induction hfound with
  | nil => exact .nil
  | @cons s occurrence starts occurrences hoccurrence hfound ih =>
    obtain ⟨hfar, hrest⟩ := pairwise_cons.mp hapart
    refine pairwise_cons.mpr ⟨fun other hother => ?_,
      ih (fun t ht => hmatch t (mem_cons_of_mem _ ht)) hrest⟩
    obtain ⟨t, ht, hother⟩ := forall₂_mem hfound hother
    obtain ⟨horder, first, scalar, hfirst, hscalar, hstart⟩ :=
      hplace (hmatch s mem_cons_self) hoccurrence
    obtain ⟨horder', first', scalar', hfirst', hscalar', hstart'⟩ :=
      hplace (hmatch t (mem_cons_of_mem _ ht)) hother
    have hwithin := hasc.within _ _ hscalar
    have hle := hasc.stop_le hscalar hscalar' (by have := hfar t ht; omega)
    rw [literalLess, if_pos (horder'.trans horder.symm), hfirst, hfirst']
    simp only [Bool.not_eq_true', decide_eq_false_iff_not]
    omega

def firstStart (occurrence : Occurrence) : Nat :=
  (occurrence.ranges.head?.map Range.start).getD 0

/-- The final sort orders the matches of one candidate by where they start as authored. -/
theorem sorted_found {occurrences : List Occurrence} {order : Nat}
    (horder : ∀ occurrence ∈ occurrences, occurrence.corpusOrder = order)
    (hranges : ∀ occurrence ∈ occurrences, occurrence.ranges ≠ []) :
    (occurrences.mergeSort (fun left right => !literalLess right left)).Pairwise
      (fun left right => (!literalLess right left) = true) := by
  have hless : ∀ left ∈ occurrences, ∀ right ∈ occurrences,
      (!literalLess right left) = decide (firstStart left ≤ firstStart right) := by
    intro left hleft right hright
    obtain ⟨first, rest, hfirst⟩ := exists_cons_of_ne_nil (hranges left hleft)
    obtain ⟨other, others, hother⟩ := exists_cons_of_ne_nil (hranges right hright)
    rw [literalLess, if_pos ((horder right hright).trans (horder left hleft).symm), firstStart,
      firstStart, hfirst, hother]
    change (!decide (other.start < first.start)) = decide (first.start ≤ other.start)
    rw [← decide_not]
    exact decide_eq_decide.mpr Nat.not_lt
  have hstarts : ((occurrences.map firstStart).mergeSort (fun a b => decide (a ≤ b))).Pairwise
      (fun a b => decide (a ≤ b) = true) := pairwise_mergeSort (by simp; omega) (by simp; omega) _
  rw [← map_mergeSort hless, pairwise_map] at hstarts
  refine hstarts.imp_of_mem (fun hleft hright hle => ?_)
  rw [hless _ (mem_mergeSort.mp hleft) _ (mem_mergeSort.mp hright)]
  exact hle

theorem containsFrom_iff (hpos : 0 < query.scalars.length) {text : Text} :
    containsFrom uc query text = true ↔
      ∃ s, startsWith uc query query.scalars (text.drop s) = true := by
  induction text with
  | nil =>
    refine iff_of_false (by simp [containsFrom]) (fun ⟨s, hs⟩ => ?_)
    obtain ⟨v, hv, -⟩ := startsWith_iff.mp hs 0 (query.scalars.get ⟨0, hpos⟩) (getElem?_eq_getElem _)
    simp at hv
  | cons scalar text ih =>
    rw [containsFrom, Bool.or_eq_true, ih]
    constructor
    · rintro (hhead | ⟨s, hs⟩)
      · exact ⟨0, hhead⟩
      · exact ⟨s + 1, hs⟩
    · rintro ⟨s, hs⟩
      cases s with
      | zero => exact .inl hs
      | succ s => exact .inr ⟨s, hs⟩

theorem containsLiteral_iff (hpos : 0 < query.scalars.length) (text : Text) :
    containsLiteral uc query text = true ↔
      ∃ s, IsMatch uc query (decode text) ⟨0, (decode text).length⟩ s := by
  rw [containsLiteral, if_neg (by simpa using List.length_pos_iff.mp hpos), containsFrom_iff hpos]
  refine exists_congr (fun s => ?_)
  have hvalues : text.drop s = ((decode text).drop s).map PlacedScalar.value := by
    rw [map_drop, decode_map_value]
  rw [hvalues]
  refine matchesAt_iff.trans ⟨fun h => ⟨Nat.zero_le s, ?_, h⟩, fun h => h.window⟩
  obtain ⟨last, hlast, -⟩ := h (query.scalars.length - 1)
    (query.scalars.get ⟨query.scalars.length - 1, by omega⟩) (getElem?_eq_getElem _)
  have := (List.getElem?_eq_some_iff.mp hlast).1
  simp only
  omega

theorem literal_scan (uc : UnicodeCase) (query : Query) (candidate : Candidate)
    (hpos : 0 < query.scalars.length) : ∃ starts occurrences,
      LeftmostIn uc query (decode candidate.text) (regionsOf candidate) starts ∧
      scanRegions (scanLiteral uc query) candidate = some occurrences ∧
      List.Forall₂ (fun s occurrence => occurrenceAt query candidate (decode candidate.text) s =
        some occurrence) starts occurrences := by
  obtain ⟨starts, hleftmost, hscan⟩ := @scanRegions_leftmost uc query hpos candidate
    (decode candidate.text) _ (scalarRegions_spec (decode candidate.text) candidate.boundaries).2
  obtain ⟨occurrences, hfound, hall⟩ := mapM_some (fun s hs => by
    obtain ⟨region, -, hmatch⟩ := hleftmost.isMatch s hs
    obtain ⟨occurrence, hoccurrence, -⟩ := occurrenceAt_some hpos candidate hmatch
    exact ⟨occurrence, hoccurrence⟩ :
      ∀ s ∈ starts, ∃ occurrence, occurrenceAt query candidate (decode candidate.text) s =
        some occurrence)
  exact ⟨starts, occurrences, hleftmost, hscan.trans hfound, hall⟩

theorem containsLiteral_scan (uc : UnicodeCase) (query : Query) (candidate : Candidate)
    (hpos : 0 < query.scalars.length) (hwhole : candidate.boundaries = []) :
    containsLiteral uc query candidate.text = true ↔ ∃ occurrence occurrences,
      scanRegions (scanLiteral uc query) candidate = some (occurrence :: occurrences) := by
  obtain ⟨starts, occurrences, hleftmost, hscan, hall⟩ := literal_scan uc query candidate hpos
  rw [regionsOf, hwhole, scalarRegions_whole] at hleftmost
  rw [containsLiteral_iff hpos, hscan]
  constructor
  · rintro ⟨t, ht⟩
    obtain ⟨s, hs, -⟩ := hleftmost.leftmost _ mem_cons_self t ht
    cases hall with
    | nil => cases hs
    | cons _ _ => exact ⟨_, _, rfl⟩
  · rintro ⟨occurrence, rest, heq⟩
    obtain rfl := some.inj heq
    cases hall with
    | cons _ _ =>
      obtain ⟨region, hregion, hmatch⟩ := hleftmost.isMatch _ mem_cons_self
      obtain rfl := mem_singleton.mp hregion
      exact ⟨_, hmatch⟩

/-- The scan of one candidate lists its leftmost matches once; the search over the graph keeps of all
matches those that were authored apart, which are the same when matches meet in the text exactly
where they meet as authored. -/
theorem literal_search (uc : UnicodeCase) (query : Query) (candidate : Candidate)
    (hne : query.scalars ≠ []) :
    (∃ starts occurrences,
      LeftmostIn uc query (decode candidate.text) (regionsOf candidate) starts ∧
      scanRegions (scanLiteral uc query) candidate = some occurrences ∧
      List.Forall₂ (fun s occurrence => occurrenceAt query candidate (decode candidate.text) s =
        some occurrence) starts occurrences ∧
      (hasEmoji candidate = false → ∃ sorted, scanLiterals uc query [candidate] = some sorted ∧
        sorted.Perm occurrences ∧ (candidate.mapping = [] → sorted = occurrences) ∧
        ((∀ occurrence ∈ occurrences, occurrence.ranges ≠ []) →
          sorted.Pairwise (fun left right => (!literalLess right left) = true)))) ∧
    (hasEmoji candidate = false → ∀ region ∈ regionsOf candidate,
      (∃ starts, AllMatches uc query (decode candidate.text) region starts ∧
        scanEmojiLiteral uc query candidate (decode candidate.text) region =
          keepAuthored query candidate (decode candidate.text) 0 starts) ∧
      (candidate.mapping = [] ∨
          MapsApart uc query candidate (decode candidate.text) region →
        scanEmojiLiteral uc query candidate (decode candidate.text) region =
          scanLiteral uc query candidate (decode candidate.text) region)) ∧
    (candidate.boundaries = [] → (containsLiteral uc query candidate.text = true ↔
      ∃ occurrence occurrences,
        scanRegions (scanLiteral uc query) candidate = some (occurrence :: occurrences))) := by
  have hpos := length_pos_iff.mpr hne
  have hasc := decode_ascending candidate.text
  refine ⟨?_, fun hplain region hregion => ?_, containsLiteral_scan uc query candidate hpos⟩
  · obtain ⟨starts, occurrences, hleftmost, hscan, hall⟩ :=
      literal_scan uc query candidate hpos
    have horder : ∀ occurrence ∈ occurrences, occurrence.corpusOrder = candidate.corpusOrder := by
      intro occurrence hmem
      obtain ⟨s, hs, hoccurrence⟩ := forall₂_mem hall hmem
      obtain ⟨region, -, hmatch⟩ := hleftmost.isMatch s hs
      obtain ⟨other, hother, horder⟩ := occurrenceAt_some hpos candidate hmatch
      rw [some.inj (hoccurrence.symm.trans hother), horder]
    refine ⟨starts, occurrences, hleftmost, hscan, hall, fun hplain =>
      ⟨occurrences.mergeSort (fun left right => !literalLess right left), ?_,
        mergeSort_perm _ _,
        fun hmapping => mergeSort_of_pairwise (found_sorted hasc hpos hmapping hleftmost hall),
        sorted_found horder⟩⟩
    rw [scanLiterals, if_neg (by simpa using hne), mapM_cons, hplain]
    simp only [Bool.false_eq_true, if_false, hscan]
    simp
  · obtain ⟨hwithin, hstop⟩ :=
      (scalarRegions_spec (decode candidate.text) candidate.boundaries).1 region hregion
    refine ⟨scanEmojiLiteral_eq hpos hplain hwithin hstop, fun h =>
      scanEmojiLiteral_agrees hpos hplain hwithin hstop ?_⟩
    cases h with
    | inl hmapping => exact mapsApart_unmapped hasc hpos hmapping
    | inr hmaps => exact hmaps

theorem literal_search_contains : ∃ occurrence occurrences,
    scanRegions (scanLiteral asciiCase ⟨[97, 98], false⟩)
      ⟨[120, 97, 98], [], [], .source ⟨0, .new, [], [], none, some 1⟩, 0, 0⟩ =
        some (occurrence :: occurrences) :=
  ((literal_search asciiCase ⟨[97, 98], false⟩
    ⟨[120, 97, 98], [], [], .source ⟨0, .new, [], [], none, some 1⟩, 0, 0⟩ (by decide)).2.2 rfl).mp
      (by decide)

/-- Both matches in a text that a definition supplies were authored where it is used. -/
theorem authored_once : ¬∀ (uc : UnicodeCase) (query : Query) (candidate : Candidate),
    query.scalars ≠ [] → hasEmoji candidate = false → ∀ region ∈ regionsOf candidate,
      scanEmojiLiteral uc query candidate (decode candidate.text) region =
        scanLiteral uc query candidate (decode candidate.text) region := by
  intro h
  have hregion := h asciiCase ⟨[97], false⟩ ⟨[97, 97], [⟨⟨0, 2⟩, ⟨10, 20⟩, none, none, some ⟨30, 32⟩, []⟩], [],
    .reviewBody ⟨.comment 1, 1⟩, 0, 0⟩ (by decide) rfl ⟨0, 2⟩ (by decide)
  have hsort : (branchMatches asciiCase ⟨[97], false⟩ [⟨⟨97, ⟨0, 1⟩⟩, (none, none), false⟩,
      ⟨⟨97, ⟨1, 2⟩⟩, (some 0, none), false⟩]).mergeSort rangeLe = [⟨0, 1⟩, ⟨1, 2⟩] :=
    mergeSort_of_pairwise (by decide)
  change keepMatches _ _ _ 0 0 ((branchMatches asciiCase ⟨[97], false⟩
    [⟨⟨97, ⟨0, 1⟩⟩, (none, none), false⟩,
      ⟨⟨97, ⟨1, 2⟩⟩, (some 0, none), false⟩]).mergeSort rangeLe) = _ at hregion
  rw [hsort] at hregion
  exact absurd hregion (by decide)

end Bbr.Search

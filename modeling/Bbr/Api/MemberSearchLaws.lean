import Bbr.Api.NameMatching
import Bbr.Lib.Champions
import Bbr.Lib.Pairings
import Mathlib.Data.Prod.Lex

/-!
# The list of matches

Entries are ordered by their kind, distance, folded names and account. A search keeps the first
entry of every account in this order and sorts what it keeps, so that the order of the members does
not matter.
-/
namespace Bbr.Api.MemberSearch
open Bbr.Search (Scalar utf8Decode)
open Bbr.Bitbucket (WorkspaceMember)
open Bbr.Lib List

theorem Kind.toNat_inj {a b : Kind} : a.toNat = b.toNat ↔ a = b := by
  cases a <;> cases b <;> decide

theorem Field.toNat_inj {a b : Field} : a.toNat = b.toNat ↔ a = b := by
  cases a <;> cases b <;> decide

variable {a b : Quality}

theorem better_iff : better a b = true ↔
    a.kind.toNat < b.kind.toNat ∨ a.kind = b.kind ∧ a.distance < b.distance := by
  by_cases h : a.kind = b.kind <;> simp [better, h]

theorem order_eq_lt {a b : List Nat} : order a b = .lt ↔ a < b := by
  induction a generalizing b with
  | nil => cases b <;> simp [order]
  | cons x a ih =>
    cases b with
    | nil => simp [order]
    | cons y b =>
      rw [order, cons_lt_cons_iff]
      by_cases hlt : x < y
      · simp [hlt]
      by_cases hgt : y < x
      · have hne : x ≠ y := by omega
        simp [hlt, hgt, hne]
      · have heq : x = y := by omega
        simp [heq, ih]

theorem order_eq_eq {a b : List Nat} : order a b = .eq ↔ a = b := by
  induction a generalizing b with
  | nil => cases b <;> simp [order]
  | cons x a ih =>
    cases b with
    | nil => simp [order]
    | cons y b =>
      rw [order, cons.injEq]
      by_cases hlt : x < y
      · have hne : x ≠ y := by omega
        simp [hlt, hne]
      by_cases hgt : y < x
      · have hne : x ≠ y := by omega
        simp [hlt, hgt, hne]
      · have heq : x = y := by omega
        simp [heq, ih]

abbrev SortKey := Nat ×ₗ Nat ×ₗ List Nat ×ₗ List Nat ×ₗ List Nat

def sortKey (entry : Match) (name nickname : List Scalar) : SortKey :=
  toLex (entry.matchKind.toNat, toLex (entry.editDistance, toLex (name, toLex (nickname,
    entry.member.uuid.map UInt8.toNat))))

def rankOf (entry : Ranked) : SortKey ×ₗ Nat :=
  toLex (sortKey entry.toMatch entry.name entry.nickname, entry.toMatch.matchedField.toNat)

theorem sortKey_lt {a b : Match} {name name' nickname nickname' : List Scalar} :
    sortKey a name nickname < sortKey b name' nickname' ↔
      a.matchKind.toNat < b.matchKind.toNat ∨ a.matchKind.toNat = b.matchKind.toNat ∧
      (a.editDistance < b.editDistance ∨ a.editDistance = b.editDistance ∧
      (name < name' ∨ name = name' ∧ (nickname < nickname' ∨ nickname = nickname' ∧
        a.member.uuid.map UInt8.toNat < b.member.uuid.map UInt8.toNat))) := by
  simp only [sortKey, Prod.Lex.toLex_lt_toLex]

theorem sortKey_eq {a b : Match} {name name' nickname nickname' : List Scalar} :
    sortKey a name nickname = sortKey b name' nickname' ↔
      a.matchKind = b.matchKind ∧ a.editDistance = b.editDistance ∧ name = name' ∧
        nickname = nickname' ∧ a.member.uuid = b.member.uuid := by
  have huuid : Function.Injective (map UInt8.toNat) :=
    map_injective_iff.mpr (fun _ _ h => UInt8.toNat_inj.mp h)
  simp [sortKey, Kind.toNat_inj, huuid.eq_iff]

theorem rankedLessThan_iff {lhs rhs : Ranked} :
    rankedLessThan lhs rhs = true ↔ rankOf lhs < rankOf rhs := by
  have hkind := @Kind.toNat_inj lhs.toMatch.matchKind rhs.toMatch.matchKind
  have huuid : lhs.toMatch.member.uuid.map UInt8.toNat = rhs.toMatch.member.uuid.map UInt8.toNat ↔
      lhs.toMatch.member.uuid = rhs.toMatch.member.uuid := by
    have hinj : Function.Injective (map UInt8.toNat) :=
      map_injective_iff.mpr (fun _ _ h => UInt8.toNat_inj.mp h)
    exact hinj.eq_iff
  rw [rankOf, rankOf, Prod.Lex.toLex_lt_toLex, sortKey_lt, sortKey_eq, rankedLessThan]
  simp only [better_iff, order_eq_eq, ne_eq, ite_not]
  split
  · grind
  split
  · grind
  split
  · split
    · split
      · simp; grind
      · simp [order_eq_lt]; grind
    · simp [order_eq_lt]; grind
  · simp [order_eq_lt]; grind

variable {fold : Scalar → Scalar} {query candidate : Text} {limit : Nat} {field : Field}
  {member : WorkspaceMember} {name : Bytes}

theorem fuzzyBudget_le (query : Text) : fuzzyBudget query ≤ 2 := by
  unfold fuzzyBudget
  split
  · omega
  · split <;> omega

section

variable (hquery : Spelled (2 * maxQueryScalars) query) (hcandidate : Spelled limit candidate)
include hquery hcandidate

theorem holdsQuery_total (hparts : query.parts 0 ≠ []) (field : Field) :
    ∃ holds, holdsQuery query candidate field = .ok holds := by
  cases field with
  | nickname => exact ⟨_, rfl⟩
  | displayName =>
    obtain ⟨answer, hrun, _⟩ := partMatch_literal hquery hcandidate (Nat.zero_le 2) hparts
    rw [holdsQuery, hrun]
    exact ⟨_, rfl⟩

theorem fuzzyMatch_total (hparts : query.parts 0 ≠ []) (field : Field) :
    ∃ quality, fuzzyMatch query candidate field = .ok quality := by
  have hbudget := fuzzyBudget_le query
  rw [fuzzyMatch, formDistance_eq hquery hbudget]
  cases field with
  | nickname => exact ⟨_, rfl⟩
  | displayName =>
    obtain ⟨answer, hrun, _⟩ := partMatch_spellings hquery hcandidate hbudget hparts
    simp only [hrun, ok_bind]
    exact ⟨_, rfl⟩

theorem fieldMatch_total (field : Field) :
    ∃ quality, fieldMatch query candidate field = .ok quality := by
  rw [fieldMatch]
  split
  · exact ⟨_, rfl⟩
  split
  · exact ⟨_, rfl⟩
  split
  · exact ⟨_, rfl⟩
  split
  · exact ⟨_, rfl⟩
  rename_i hparts
  have hparts : query.parts 0 ≠ [] := fun hnil => hparts (.inl hnil)
  obtain ⟨holds, hholds⟩ := holdsQuery_total hquery hcandidate hparts field
  rw [hholds, ok_bind]
  cases holds with
  | true => exact ⟨_, rfl⟩
  | false => exact fuzzyMatch_total hquery hcandidate hparts field

end

def fieldOf (member : WorkspaceMember) : Field → Bytes
  | .displayName => member.displayName
  | .nickname => member.nickname

/-- The names of a member are texts. -/
def Readable (member : WorkspaceMember) : Prop :=
  ∀ field, (utf8Decode (fieldOf member field)).isSome

def folded (fold : Scalar → Scalar) (bytes : Bytes) : List Scalar :=
  match utf8Decode bytes with
  | some scalars => normalize fold scalars
  | none => []

/-- The query matches the field of a member. -/
def FieldMatches (fold : Scalar → Scalar) (query : Text) (member : WorkspaceMember) (field : Field)
    (quality : Quality) : Prop :=
  ∃ text, prepare fold (fieldOf member field) = .ok text ∧
    fieldMatch query text field = .ok (some quality)

/-- A match of a member by the better one of its fields. -/
structure BestField (fold : Scalar → Scalar) (query : Text) (entry : Match) : Prop where
  found : FieldMatches fold query entry.member entry.matchedField
    ⟨entry.matchKind, entry.editDistance⟩
  best : ∀ field quality, FieldMatches fold query entry.member field quality →
    better quality ⟨entry.matchKind, entry.editDistance⟩ = false

theorem prepare_readable {bytes : Bytes} (h : (utf8Decode bytes).isSome) :
    ∃ text, prepare fold bytes = .ok text ∧ text.forms 0 = folded fold bytes ∧
      ∃ limit, Spelled limit text := by
  obtain ⟨scalars, hscalars⟩ := Option.isSome_iff_exists.mp h
  have hprepare : prepare fold bytes = .ok ⟨spellingOf (normalize fold scalars),
      fun form => tokenizeFrom [] (spellingOf (normalize fold scalars) form)⟩ := by
    rw [prepare, hscalars]
  obtain ⟨_, _, hspelled⟩ := prepare_ok hprepare
  refine ⟨_, hprepare, ?_, _, hspelled⟩
  rw [folded, hscalars]
  rfl

theorem better_irrefl (quality : Quality) : better quality quality = false := by
  rw [← Bool.not_eq_true, better_iff]
  omega

theorem better_asymm (h : better a b = true) : better b a = false := by
  rw [better_iff] at h
  rw [← Bool.not_eq_true, better_iff]
  rintro (hlt | ⟨heq, hlt⟩)
  · cases h with
    | inl h => omega
    | inr h =>
      rw [h.1] at hlt
      omega
  · rw [heq] at h
    omega

def answerOf (display nick : Option Quality) : Field → Option Quality
  | .displayName => display
  | .nickname => nick

variable {display nick : Option Quality} {quality : Quality}

theorem betterField_some (h : betterField display nick = some (quality, field)) :
    answerOf display nick field = some quality ∧
    ∀ other answer, answerOf display nick other = some answer → better answer quality = false := by
  have hfields : (∀ answer, display = some answer → better answer quality = false) →
      (∀ answer, nick = some answer → better answer quality = false) →
      ∀ other answer, answerOf display nick other = some answer → better answer quality = false := by
    intro hdisplay hnick other
    cases other with
    | displayName => exact hdisplay
    | nickname => exact hnick
  cases display with
  | none =>
    cases nick with
    | none => cases h
    | some nickMatch =>
      cases h
      exact ⟨rfl, hfields (fun _ hnone => nomatch hnone)
        (fun _ hsome => by cases hsome; exact better_irrefl _)⟩
  | some displayMatch =>
    cases nick with
    | none =>
      cases h
      exact ⟨rfl, hfields (fun _ hsome => by cases hsome; exact better_irrefl _)
        (fun _ hnone => nomatch hnone)⟩
    | some nickMatch =>
      simp only [betterField] at h
      split at h
      · next hbetter =>
        cases h
        exact ⟨rfl, hfields (fun _ hsome => by cases hsome; exact better_asymm hbetter)
          (fun _ hsome => by cases hsome; exact better_irrefl _)⟩
      · next hbetter =>
        cases h
        exact ⟨rfl, hfields (fun _ hsome => by cases hsome; exact better_irrefl _)
          (fun _ hsome => by cases hsome; exact Bool.not_eq_true _ ▸ hbetter)⟩

theorem betterField_none : betterField display nick = none ↔ display = none ∧ nick = none := by
  cases display <;> cases nick <;> simp [betterField]
  split <;> simp

/-- A readable member is ranked by its better field, if any field matches. -/
theorem rankMember_ok (hquery : Spelled (2 * maxQueryScalars) query) (h : Readable member) :
    ∃ entry, rankMember fold query member = .ok entry ∧
      (entry = none ↔ ∀ field quality, ¬FieldMatches fold query member field quality) ∧
      ∀ ranked, entry = some ranked → ranked.toMatch.member = member ∧
        ranked.name = folded fold member.displayName ∧
        ranked.nickname = folded fold member.nickname ∧ BestField fold query ranked.toMatch := by
  obtain ⟨display, hdisplay, hname, _, hspelled⟩ := @prepare_readable fold _ (h .displayName)
  obtain ⟨nick, hnick, hnickname, _, hspelled'⟩ := @prepare_readable fold _ (h .nickname)
  obtain ⟨displayMatch, hdisplayMatch⟩ := fieldMatch_total hquery hspelled .displayName
  obtain ⟨nickMatch, hnickMatch⟩ := fieldMatch_total hquery hspelled' .nickname
  simp only [fieldOf] at hdisplay hnick hname hnickname
  have hmatches : ∀ field quality, FieldMatches fold query member field quality ↔
      answerOf displayMatch nickMatch field = some quality := by
    intro field quality
    cases field with
    | displayName => simp [FieldMatches, fieldOf, hdisplay, hdisplayMatch, answerOf]
    | nickname => simp [FieldMatches, fieldOf, hnick, hnickMatch, answerOf]
  have hrun : rankMember fold query member = .ok ((betterField displayMatch nickMatch).map
      (fun found => { toMatch := ⟨member, found.1.kind, found.2, found.1.distance⟩
                      name := display.forms 0, nickname := nick.forms 0 })) := by
    rw [rankMember, hdisplay, ok_bind, hnick, ok_bind, hdisplayMatch, ok_bind, hnickMatch]
    rfl
  refine ⟨_, hrun, ?_, fun ranked hranked => ?_⟩
  · rw [Option.map_eq_none_iff, betterField_none]
    constructor
    · rintro ⟨hnone, hnone'⟩ field quality hmatch
      rw [hmatches] at hmatch
      cases field with
      | displayName => cases hnone.symm.trans hmatch
      | nickname => cases hnone'.symm.trans hmatch
    · intro hnone
      constructor
      · exact Option.eq_none_iff_forall_ne_some.mpr
          (fun quality heq => hnone .displayName quality ((hmatches _ _).mpr heq))
      · exact Option.eq_none_iff_forall_ne_some.mpr
          (fun quality heq => hnone .nickname quality ((hmatches _ _).mpr heq))
  · obtain ⟨⟨quality, field⟩, hbest, rfl⟩ := Option.map_eq_some_iff.mp hranked
    obtain ⟨hfound, hfields⟩ := betterField_some hbest
    exact ⟨rfl, hname, hnickname, (hmatches field quality).mpr hfound,
      fun other answer hother => hfields other answer ((hmatches other answer).mp hother)⟩

def uuidOf (entry : Ranked) : Bytes := entry.toMatch.member.uuid

theorem keepBest_eq (entry : Ranked) (kept : List Ranked) :
    keepBest entry kept = keepBetter uuidOf rankOf entry kept := by
  induction kept with
  | nil => rfl
  | cons first kept ih =>
    by_cases hlt : rankOf entry < rankOf first
    · simp [keepBest, keepBetter, uuidOf, rankedLessThan_iff, hlt, ih]
    · simp [keepBest, keepBetter, uuidOf, rankedLessThan_iff, hlt, ih]

theorem rankOf_uuid {a b : Ranked} (h : rankOf a = rankOf b) : uuidOf a = uuidOf b := by
  have hkeys : sortKey a.toMatch a.name a.nickname = sortKey b.toMatch b.name b.nickname :=
    (Prod.mk.inj (toLex.injective h)).1
  exact (sortKey_eq.mp hkeys).2.2.2.2

/-- The entry of a member, if it has one. -/
def rankedOf (fold : Scalar → Scalar) (query : Text) (member : WorkspaceMember) : Option Ranked :=
  match rankMember fold query member with
  | .ok entry => entry
  | .error _ => none

variable {members : List WorkspaceMember}

theorem rankMembers_eq (hquery : Spelled (2 * maxQueryScalars) query)
    (h : ∀ member ∈ members, Readable member) (ranked : List Ranked) :
    rankMembers fold query members ranked = .ok ((members.filterMap (rankedOf fold query)).foldl
      (fun kept entry => keepBetter uuidOf rankOf entry kept) ranked) := by
  induction members generalizing ranked with
  | nil => rfl
  | cons member members ih =>
    obtain ⟨entry, hrun, _⟩ := @rankMember_ok fold _ _ hquery (h member mem_cons_self)
    have hrest := ih (fun m hm => h m (mem_cons_of_mem _ hm))
    have hentry : rankedOf fold query member = entry := by rw [rankedOf, hrun]
    rw [rankMembers, hrun, ok_bind]
    cases entry with
    | none => rw [filterMap_cons_none hentry, ← hrest]
    | some entry => rw [filterMap_cons_some hentry, foldl_cons, ← hrest, ← keepBest_eq]

/-- The entries of the members, the best one of every account, in order. -/
def ranking (fold : Scalar → Scalar) (query : Text) (members : List WorkspaceMember) :
    List Ranked :=
  ((members.filterMap (rankedOf fold query)).foldl
    (fun kept entry => keepBetter uuidOf rankOf entry kept) []).mergeSort
      (fun a b => !rankedLessThan b a)

theorem ranking_champions (fold : Scalar → Scalar) (query : Text) (members : List WorkspaceMember) :
    Champions uuidOf rankOf (members.filterMap (rankedOf fold query)) (ranking fold query members) :=
  (champions_foldl uuidOf rankOf _).perm (mergeSort_perm _ _)

theorem ranking_sorted (fold : Scalar → Scalar) (query : Text) (members : List WorkspaceMember) :
    (ranking fold query members).Pairwise (fun a b => rankOf a < rankOf b) := by
  have hle : ∀ a b, (!rankedLessThan b a) = true ↔ rankOf a ≤ rankOf b := by
    intro a b
    rw [Bool.not_eq_true', ← Bool.not_eq_true, rankedLessThan_iff, not_lt]
  have hsorted : (ranking fold query members).Pairwise (fun a b => (!rankedLessThan b a) = true) :=
    pairwise_mergeSort
      (fun a b c hab hbc => (hle a c).mpr (le_trans ((hle a b).mp hab) ((hle b c).mp hbc)))
      (fun a b => by
        rw [Bool.or_eq_true, hle, hle]
        exact le_total _ _) _
  exact (ranking_champions fold query members).strict (fun a b h => rankOf_uuid h)
    (hsorted.imp (fun {a b} h => (hle a b).mp h))

theorem search_eq (hquery : Spelled (2 * maxQueryScalars) query)
    (h : ∀ member ∈ members, Readable member) (hname : validateName name = .ok ())
    (hprepare : prepare fold name = .ok query) (limit : Option Nat) :
    search fold members name limit = .ok
      { found := ((ranking fold query members).take (min
          (limit.getD (ranking fold query members).length) (ranking fold query members).length)).map
            (fun entry => entry.toMatch)
        totalMatches := (ranking fold query members).length
        exactMatches := (ranking fold query members).countP
          (fun entry => entry.toMatch.matchKind = .exact) } := by
  rw [search, hname, ok_bind, hprepare, ok_bind, rankMembers_eq hquery h, ok_bind]
  rfl

def listKey (fold : Scalar → Scalar) (entry : Match) : SortKey :=
  sortKey entry (folded fold entry.member.displayName) (folded fold entry.member.nickname)

/-- Every account that matches is listed once, by its best match, in order. -/
structure Listing (fold : Scalar → Scalar) (query : Text) (members : List WorkspaceMember)
    (listing : List Match) : Prop where
  nodup : (listing.map (fun entry => entry.member.uuid)).Nodup
  listed : ∀ uuid, uuid ∈ listing.map (fun entry => entry.member.uuid) ↔
    ∃ member ∈ members, member.uuid = uuid ∧
      ∃ field quality, FieldMatches fold query member field quality
  mem : ∀ entry ∈ listing, entry.member ∈ members ∧ FieldMatches fold query entry.member
    entry.matchedField ⟨entry.matchKind, entry.editDistance⟩
  best : ∀ entry ∈ listing, ∀ member ∈ members, member.uuid = entry.member.uuid →
    ∀ field quality, FieldMatches fold query member field quality →
      better quality ⟨entry.matchKind, entry.editDistance⟩ = false
  sorted : listing.Pairwise (fun a b => listKey fold a < listKey fold b)

/-- The matches agree but for the strings of the member. -/
def SameMatch (fold : Scalar → Scalar) (a b : Match) : Prop :=
  a.matchKind = b.matchKind ∧ a.matchedField = b.matchedField ∧ a.editDistance = b.editDistance ∧
  a.member.uuid = b.member.uuid ∧
  folded fold a.member.displayName = folded fold b.member.displayName ∧
  folded fold a.member.nickname = folded fold b.member.nickname

section

variable (hquery : Spelled (2 * maxQueryScalars) query) (h : ∀ member ∈ members, Readable member)
include hquery h

theorem mem_entries {entry : Ranked} (hentry : entry ∈ members.filterMap (rankedOf fold query)) :
    entry.toMatch.member ∈ members ∧ BestField fold query entry.toMatch ∧
    entry.name = folded fold entry.toMatch.member.displayName ∧
    entry.nickname = folded fold entry.toMatch.member.nickname := by
  obtain ⟨member, hmember, hranked⟩ := mem_filterMap.mp hentry
  obtain ⟨entry', hrun, _, hspec⟩ := @rankMember_ok fold _ _ hquery (h member hmember)
  rw [rankedOf, hrun] at hranked
  obtain ⟨heq, hname, hnickname, hbest⟩ := hspec entry hranked
  rw [heq]
  exact ⟨hmember, hbest, hname, hnickname⟩

theorem exists_entry (hmember : member ∈ members)
    (hmatch : FieldMatches fold query member field quality) :
    ∃ entry ∈ members.filterMap (rankedOf fold query), entry.toMatch.member = member := by
  obtain ⟨entry, hrun, hnone, hspec⟩ := @rankMember_ok fold _ _ hquery (h member hmember)
  cases entry with
  | none => exact absurd hmatch (hnone.mp rfl field quality)
  | some entry =>
    have hranked : rankedOf fold query member = some entry := by rw [rankedOf, hrun]
    exact ⟨entry, mem_filterMap.mpr ⟨member, hmember, hranked⟩, (hspec entry rfl).1⟩

end

def qualityKey (quality : Quality) : Nat ×ₗ Nat := toLex (quality.kind.toNat, quality.distance)

theorem better_eq_false : better a b = false ↔ qualityKey b ≤ qualityKey a := by
  rw [← not_lt, qualityKey, qualityKey, Prod.Lex.toLex_lt_toLex, ← Bool.not_eq_true, better_iff]
  simp only [Kind.toNat_inj]

theorem qualityKey_le {a b : Ranked} (h : rankOf a ≤ rankOf b) :
    qualityKey ⟨a.toMatch.matchKind, a.toMatch.editDistance⟩ ≤
      qualityKey ⟨b.toMatch.matchKind, b.toMatch.editDistance⟩ := by
  rw [← not_lt] at h ⊢
  intro hlt
  refine h ?_
  rw [qualityKey, qualityKey, Prod.Lex.toLex_lt_toLex] at hlt
  rw [rankOf, rankOf, Prod.Lex.toLex_lt_toLex, sortKey_lt]
  cases hlt with
  | inl hlt => exact .inl (.inl hlt)
  | inr hlt => exact .inl (.inr ⟨hlt.1, .inl hlt.2⟩)

theorem ranking_listing (hquery : Spelled (2 * maxQueryScalars) query)
    (h : ∀ member ∈ members, Readable member) :
    Listing fold query members ((ranking fold query members).map (fun entry => entry.toMatch)) := by
  have hchampions := ranking_champions fold query members
  have hentry : ∀ entry ∈ ranking fold query members, _ := fun entry hentry =>
    mem_entries hquery h (hchampions.mem entry hentry)
  constructor
  · rw [map_map]
    exact hchampions.nodup
  · intro uuid
    rw [map_map, mem_map]
    constructor
    · rintro ⟨entry, hmem, rfl⟩
      obtain ⟨hmember, hbest, _⟩ := hentry entry hmem
      exact ⟨_, hmember, rfl, _, _, hbest.found⟩
    · rintro ⟨member, hmember, rfl, field, quality, hmatch⟩
      obtain ⟨entry, hmem, heq⟩ := exists_entry hquery h hmember hmatch
      obtain ⟨kept, hkept, hkey⟩ := hchampions.cover entry hmem
      exact ⟨kept, hkept, hkey.trans (by rw [uuidOf, heq])⟩
  · intro entry hmem
    obtain ⟨ranked, hranked, rfl⟩ := mem_map.mp hmem
    obtain ⟨hmember, hbest, _⟩ := hentry ranked hranked
    exact ⟨hmember, hbest.found⟩
  · intro entry hmem member hmember huuid field quality hmatch
    obtain ⟨ranked, hranked, rfl⟩ := mem_map.mp hmem
    obtain ⟨other, hother, heq⟩ := exists_entry hquery h hmember hmatch
    obtain ⟨_, hbest, _⟩ := mem_entries hquery h hother
    have hle := qualityKey_le (hchampions.best ranked hranked other hother
      (by rw [uuidOf, heq]; exact huuid))
    rw [← heq] at hmatch
    have hother := better_eq_false.mp (hbest.best field quality hmatch)
    exact better_eq_false.mpr (le_trans hle hother)
  · have hne : (ranking fold query members).Pairwise (fun a b => uuidOf a ≠ uuidOf b) :=
      pairwise_map.mp hchampions.nodup
    refine pairwise_map.mpr (((ranking_sorted fold query members).and hne).imp_of_mem ?_)
    intro a b ha hb hab
    obtain ⟨_, _, hname, hnickname⟩ := hentry a ha
    obtain ⟨_, _, hname', hnickname'⟩ := hentry b hb
    have hlt := hab.1
    rw [rankOf, rankOf, Prod.Lex.toLex_lt_toLex] at hlt
    rw [listKey, listKey, ← hname, ← hnickname, ← hname', ← hnickname']
    cases hlt with
    | inl hlt => exact hlt
    | inr heq => exact absurd (sortKey_eq.mp heq.1).2.2.2.2 hab.2

theorem ranking_perm (fold : Scalar → Scalar) (query : Text) {members' : List WorkspaceMember}
    (hperm : members'.Perm members) :
    (ranking fold query members').map rankOf = (ranking fold query members).map rankOf :=
  (ranking_champions fold query members').ranks_eq (ranking_champions fold query members)
    (fun _ => (hperm.filterMap (rankedOf fold query)).mem_iff)
    (pairwise_map.mpr (ranking_sorted fold query members'))
    (pairwise_map.mpr (ranking_sorted fold query members))

/-- The rank of a match, from the names of its member. -/
def matchRank (fold : Scalar → Scalar) (entry : Match) : SortKey ×ₗ Nat :=
  toLex (listKey fold entry, entry.matchedField.toNat)

theorem sameMatch_of_rank {a b : Match} (h : matchRank fold a = matchRank fold b) :
    SameMatch fold a b := by
  obtain ⟨hkey, hfield⟩ := Prod.mk.inj (toLex.injective h)
  obtain ⟨hkind, hdistance, hname, hnickname, huuid⟩ := sortKey_eq.mp hkey
  exact ⟨hkind, Field.toNat_inj.mp hfield, hdistance, huuid, hname, hnickname⟩

theorem ranking_matchRank (hquery : Spelled (2 * maxQueryScalars) query)
    (h : ∀ member ∈ members, Readable member) :
    ((ranking fold query members).map (fun entry => entry.toMatch)).map (matchRank fold) =
      (ranking fold query members).map rankOf := by
  rw [map_map]
  refine map_congr_left (fun entry hentry => ?_)
  obtain ⟨_, _, hname, hnickname⟩ :=
    mem_entries hquery h ((ranking_champions fold query members).mem entry hentry)
  rw [rankOf, hname, hnickname]
  rfl

theorem countP_forall₂ {α : Type} {p : α → Bool} {l l' : List α}
    (h : List.Forall₂ (fun a b => p a = p b) l l') : l.countP p = l'.countP p := by
  induction h with
  | nil => rfl
  | cons hab _ ih => simp [countP_cons, hab, ih]

/-- The search lists every matching account once, in an order of its own. -/
theorem search_listing (hmembers : ∀ member ∈ members, Readable member)
    (hname : validateName name = .ok ()) (limit : Option Nat) :
    ∃ query listing result, prepare fold name = .ok query ∧ Listing fold query members listing ∧
      search fold members name limit = .ok result ∧
      result.found = listing.take (min (limit.getD listing.length) listing.length) ∧
      result.totalMatches = listing.length ∧
      result.exactMatches = listing.countP (fun entry => entry.matchKind = .exact) ∧
      ∀ members' : List WorkspaceMember, members'.Perm members →
        ∃ result', search fold members' name limit = .ok result' ∧
          List.Forall₂ (SameMatch fold) result'.found result.found ∧
          result'.totalMatches = result.totalMatches ∧
          result'.exactMatches = result.exactMatches := by
  obtain ⟨scalars, hscalars, _⟩ := validateName_ok hname
  obtain ⟨query, hprepare, _, _⟩ := @prepare_readable fold name (by rw [hscalars]; rfl)
  have hquery := query_spelled hname hprepare
  refine ⟨query, _, _, hprepare, ranking_listing hquery hmembers,
    search_eq hquery hmembers hname hprepare limit, ?_, ?_, ?_, fun members' hperm => ?_⟩
  · rw [length_map, map_take]
  · rw [length_map]
  · rw [countP_map]
    rfl
  · have hmembers' : ∀ member ∈ members', Readable member := fun member hmember =>
      hmembers member (hperm.mem_iff.mp hmember)
    have hranks := ranking_perm fold query hperm
    rw [← ranking_matchRank hquery hmembers', ← ranking_matchRank hquery hmembers] at hranks
    have hsame := (forall₂_of_map_eq hranks).imp (fun _ _ h => sameMatch_of_rank h)
    have hlength : (ranking fold query members').length = (ranking fold query members).length := by
      simpa using hsame.length_eq
    refine ⟨_, search_eq hquery hmembers' hname hprepare limit, ?_, hlength, ?_⟩
    · simp only [hlength, map_take]
      exact forall₂_take _ hsame
    · have hkinds := countP_forall₂ (hsame.imp (fun a b h => by rw [h.1] :
        ∀ a b, SameMatch fold a b → decide (a.matchKind = .exact) = decide (b.matchKind = .exact)))
      rw [countP_map, countP_map] at hkinds
      exact hkinds

/-- Two entries of the account `1` and the query `ada`. -/
theorem ada_listing : ∃ query listing result,
    prepare id [0x61, 0x64, 0x61] = .ok query ∧
    Listing id query [⟨[1], [0x61], [0x61, 0x64, 0x61]⟩, ⟨[1], [0x61, 0x64, 0x61], []⟩] listing ∧
    search id [⟨[1], [0x61], [0x61, 0x64, 0x61]⟩, ⟨[1], [0x61, 0x64, 0x61], []⟩]
      [0x61, 0x64, 0x61] none = .ok result ∧
    result.found = listing.take (min listing.length listing.length) := by
  have hmembers : ∀ member ∈ [(⟨[1], [0x61], [0x61, 0x64, 0x61]⟩ : WorkspaceMember),
      ⟨[1], [0x61, 0x64, 0x61], []⟩], Readable member := by
    intro member hmember field
    cases hmember with
    | head => cases field <;> decide
    | tail _ hmember =>
      cases mem_singleton.mp hmember
      cases field <;> decide
  obtain ⟨query, listing, result, hquery, hlisting, hrun, hfound, _⟩ :=
    @search_listing id [0x61, 0x64, 0x61] _ hmembers (by decide) none
  exact ⟨query, listing, result, hquery, hlisting, hrun, hfound⟩

end Bbr.Api.MemberSearch

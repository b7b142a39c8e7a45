import Bbr.Highlight.LocalsLaws

/-!
# Local bindings and lexical scope

A scope that ends where the next capture starts is kept, and its definitions with it. Where no capture
touches an earlier scope so, the references that are recorded are those that are bound.
-/
namespace Bbr.Highlight.Locals

open List

def Contains (a b : Capture) : Prop := a.start ≤ b.start ∧ b.stop ≤ a.stop

instance decidableContains (a b : Capture) : Decidable (Contains a b) :=
  inferInstanceAs (Decidable (_ ∧ _))

/-- The innermost scope that contains a definition; the whole content is the outermost. -/
structure Innermost (content : Bytes) (captures : List Capture) (d s : Capture) : Prop where
  mem : s ∈ root content :: captures
  scope : s.kind = .scope
  contains : Contains s d
  least : ∀ t ∈ root content :: captures, t.kind = .scope → Contains t d → Contains t s

/-- A definition of its text has ended, and its innermost scope contains the reference. -/
def Bound (content : Bytes) (captures : List Capture) (r : Capture) : Prop :=
  ∃ d ∈ captures, d.kind = .definition ∧ d.text content = r.text content ∧ d.stop ≤ r.start ∧
    ∃ s, Innermost content captures d s ∧ Contains s r

/-- Recorded are the ranges of the definitions and of the bound references. -/
def Follows (content : Bytes) (captures : List Capture) : Prop :=
  ∀ range, range ∈ collectPrepared content captures ↔
    (∃ d ∈ captures, d.kind = .definition ∧ d.range = range) ∨
      ∃ r ∈ captures, r.kind = .reference ∧ r.range = range ∧ Bound content captures r

/-- A stream of captures: in order, and any two scopes are apart or nested. -/
structure Stream (content : Bytes) (captures : List Capture) : Prop extends InOrder content captures where
  nested : ∀ a ∈ captures, ∀ b ∈ captures, a.kind = .scope → b.kind = .scope →
    a.stop ≤ b.start ∨ b.stop ≤ a.start ∨ Contains a b ∨ Contains b a

/-- Where a reference is no definition itself, a definition of its text that has ended is owned by a scope
kept at it exactly when one binds it. -/
def Faithful (content : Bytes) (captures : List Capture) : Prop :=
  ∀ r ∈ captures, r.kind = .reference →
    (∀ d ∈ captures, d.kind = .definition → d.range ≠ r.range) →
      ((∃ before same behind, captures = before ++ same :: behind ∧ same.kind = .reference ∧
        same.range = r.range ∧ Reached content before same) ↔ Bound content captures r)

/-- No capture starts where an earlier scope ends, scopes come before what they contain, and no definition
or reference runs over the end of a scope. -/
structure Clear (captures : List Capture) : Prop where
  apart : captures.Pairwise (fun a b => a.kind = .scope → b.kind ≠ .other → a.stop ≠ b.start)
  first : captures.Pairwise (fun a b => b.kind = .scope → Contains b a →
    a.kind ≠ .definition ∧ (a.kind = .scope → Contains a b))
  whole : captures.Pairwise (fun a b => a.kind = .scope → b.kind = .definition ∨ b.kind = .reference →
    b.start < a.stop → b.stop ≤ a.stop)

section Scopes

variable {content : Bytes} {captures before behind between : List Capture} {d r s : Capture}

theorem bound_congr (hrange : r.range = s.range) : Bound content captures r ↔ Bound content captures s := by
  obtain ⟨hstart, hstop⟩ := Range.mk.inj hrange
  simp only [Bound, Contains, Capture.text, hstart, hstop]

theorem follows_iff (h : InOrder content captures) :
    Follows content captures ↔ Faithful content captures := by
  simp only [Follows, run_ranges h, Recorded]
  constructor
  · intro hfollows r hr hkind hdef
    have hrange := hfollows r.range
    have hnone : ¬∃ d ∈ captures, d.kind = .definition ∧ d.range = r.range := by
      rintro ⟨d, hd, hk, heq⟩
      exact hdef d hd hk heq
    rw [or_iff_right hnone, or_iff_right hnone] at hrange
    rw [hrange]
    constructor
    · rintro ⟨s, -, -, hs, hbound⟩
      exact (bound_congr hs).mp hbound
    · exact fun hbound => ⟨r, hr, hkind, rfl, hbound⟩
  · intro hfaithful range
    by_cases hdef : ∃ d ∈ captures, d.kind = .definition ∧ d.range = range
    · exact iff_of_true (.inl hdef) (.inl hdef)
    have hnot : ∀ d ∈ captures, d.kind = .definition → d.range ≠ range :=
      fun d hd hk heq => hdef ⟨d, hd, hk, heq⟩
    rw [or_iff_right hdef, or_iff_right hdef]
    constructor
    · rintro ⟨before, r, behind, hsplit, hkind, rfl, hreached⟩
      have hr : r ∈ captures := by simp [hsplit]
      exact ⟨r, hr, hkind, rfl, (hfaithful r hr hkind hnot).mp
        ⟨before, r, behind, hsplit, hkind, rfl, hreached⟩⟩
    · rintro ⟨r, hr, hkind, rfl, hbound⟩
      exact (hfaithful r hr hkind hnot).mpr hbound

/-- What an earlier capture is to a later one. -/
structure Tidy (a b : Capture) : Prop where
  start : a.start ≤ b.start
  whole : a.kind = .scope → b.kind ≠ .other → b.start ≤ a.stop → b.stop ≤ a.stop
  first : a.kind = .definition → b.kind = .scope → ¬Contains b a

theorem tidy (h : Stream content captures) (hclear : Clear captures) :
    (root content :: captures).Pairwise Tidy := by
  refine pairwise_cons.mpr ⟨fun b hb => ⟨Nat.zero_le _, fun _ _ _ => (h.inside b hb).2, ?_⟩, ?_⟩
  · intro hroot
    cases hroot
  have hall := h.sorted.and (hclear.apart.and (hclear.first.and hclear.whole))
  refine hall.imp_of_mem (fun {a b} ha hb hab => ?_)
  obtain ⟨hstart, hapart, hfirst, hwhole⟩ := hab
  refine ⟨hstart, fun hscope hkind hle => ?_, fun hdef hscope hcontains =>
    (hfirst hscope hcontains).1 hdef⟩
  have hlt : b.start < a.stop := Nat.lt_of_le_of_ne hle (hapart hscope hkind).symm
  cases hb_kind : b.kind with
  | scope =>
    rcases h.nested a ha b hb hscope hb_kind with hnest | hnest | hnest | hnest
    · omega
    · omega
    · exact hnest.2
    · exact ((hfirst hb_kind hnest).2 hscope).2
  | definition => exact hwhole hscope (.inl hb_kind) hlt
  | reference => exact hwhole hscope (.inr hb_kind) hlt
  | other => exact absurd hb_kind hkind

theorem Tidy.kept {place : Nat} (hscope : s.kind = .scope) (h : ∀ c ∈ behind, Tidy s c)
    (hkept : Kept s.stop behind place) : place ≤ s.stop := by
  induction behind with
  | nil => exact hkept
  | cons c behind ih =>
    obtain ⟨hc, hrest⟩ := forall_mem_cons.mp h
    obtain ⟨hstart, hkept⟩ := hkept
    by_cases hc_scope : c.kind = .scope
    · have hstop := hc.whole hscope (by simp [hc_scope]) hstart
      rw [if_pos hc_scope, Nat.max_eq_left hstop] at hkept
      exact ih hrest hkept
    · rw [if_neg hc_scope] at hkept
      exact ih hrest hkept

theorem definition_mem (h : d ∈ root content :: captures) (hdef : d.kind = .definition) :
    d ∈ captures := by
  rcases mem_cons.mp h with rfl | h
  · cases hdef
  · exact h

theorem length_text {c : Capture} (h : c.stop ≤ content.length) :
    (c.text content).length = c.stop - c.start := by
  simp [Capture.text]
  omega

variable (htidy : (root content :: captures).Pairwise Tidy)
  (hinside : ∀ c ∈ captures, c.start ≤ c.stop ∧ c.stop ≤ content.length)

include htidy hinside

theorem innermost_of_held {outer : List Capture}
    (hsplit : root content :: captures = outer ++ s :: (between ++ d :: behind))
    (hscope : s.kind = .scope) (hdef : d.kind = .definition) (hle : d.start ≤ s.stop)
    (hheld : held between d.start = []) : Innermost content captures d s := by
  have hd_range := hinside d (definition_mem (by rw [hsplit]; simp) hdef)
  rw [hsplit] at htidy
  obtain ⟨-, hs_rest, houter⟩ := pairwise_append.mp htidy
  obtain ⟨hs, hrest⟩ := pairwise_cons.mp hs_rest
  obtain ⟨-, hd_rest, hbetween⟩ := pairwise_append.mp hrest
  have hs_d := hs d (by simp)
  refine ⟨by simp [hsplit], hscope, ⟨hs_d.start, hs_d.whole hscope (by simp [hdef]) hle⟩, ?_⟩
  intro t ht ht_scope ht_contains
  rw [hsplit] at ht
  rcases mem_append.mp ht with ht | ht
  · have ht_s := houter t ht s mem_cons_self
    have hle' : s.start ≤ t.stop := by
      have := hs_d.start
      have := ht_contains.2
      omega
    exact ⟨ht_s.start, ht_s.whole ht_scope (by simp [hscope]) hle'⟩
  · rcases mem_cons.mp ht with rfl | ht
    · exact ⟨Nat.le_refl _, Nat.le_refl _⟩
    rcases mem_append.mp ht with ht | ht
    · have hstarts : ∀ c ∈ between, c.start ≤ d.start :=
        fun c hc => (hbetween c hc d mem_cons_self).start
      exact absurd hheld ((held_ne_nil hstarts).mpr
        ⟨t, ht, ht_scope, Nat.le_trans hd_range.1 ht_contains.2⟩)
    · rcases mem_cons.mp ht with rfl | ht
      · simp [hdef] at ht_scope
      · exact absurd ht_contains (((pairwise_cons.mp hd_rest).1 t ht).first hdef ht_scope)

section

variable (hsplit : captures = before ++ r :: behind)
include hsplit

theorem bound_of_reached (hkind : r.kind = .reference)
    (h : Reached content before r) : Bound content captures r := by
  obtain ⟨⟨s, tail⟩, hx, y, hy, hstop, htext⟩ := h
  obtain ⟨outer, houter, hscope, hkept⟩ := mem_held.mp hx
  obtain ⟨between, d, rest, htail, hdef, hheld, rfl⟩ := mem_owned.mp hy
  subst htail
  have hroot : root content :: captures = outer ++ s :: (between ++ d :: (rest ++ r :: behind)) := by
    rw [hsplit, ← cons_append, houter]
    simp
  have hpairs := htidy
  rw [hroot] at hpairs
  obtain ⟨-, hs_rest, -⟩ := pairwise_append.mp hpairs
  obtain ⟨hs, hrest⟩ := pairwise_cons.mp hs_rest
  obtain ⟨-, hd_rest, -⟩ := pairwise_append.mp hrest
  have hs_r := hs r (by simp)
  have hd_r := (pairwise_cons.mp hd_rest).1 r (by simp)
  have hle := Tidy.kept hscope (fun c hc => hs c (by
    rcases mem_append.mp hc with hc | hc
    · simp [hc]
    · rcases mem_cons.mp hc with rfl | hc <;> simp [*])) hkept
  have hinner := innermost_of_held htidy hinside hroot hscope hdef (Nat.le_trans hd_r.start hle) hheld
  exact ⟨d, definition_mem (by rw [hroot]; simp) hdef, hdef, htext.symm, hstop, s, hinner, hs_r.start,
    hs_r.whole hscope (by simp [hkind]) hle⟩

theorem reached_of_before {rest : List Capture}
    (hbefore : before = between ++ d :: rest) (hdef : d.kind = .definition)
    (htext : d.text content = r.text content) (hstop : d.stop ≤ r.start)
    (hinner : Innermost content captures d s) (hcontains : Contains s r) :
    Reached content before r := by
  have hroot : root content :: captures = (root content :: between) ++ d :: (rest ++ r :: behind) := by
    simp [hsplit, hbefore]
  have hpairs := htidy
  rw [hroot] at hpairs
  obtain ⟨hbetween, hd_rest, hto_d⟩ := pairwise_append.mp hpairs
  have hstarts : ∀ c ∈ root content :: between, c.start ≤ d.start :=
    fun c hc => (hto_d c hc d mem_cons_self).start
  have hd_range := hinside d (definition_mem (by rw [hroot]; simp) hdef)
  have hr_range := hinside r (by simp [hsplit])
  have hheld : held (root content :: between) d.start ≠ [] :=
    (held_ne_nil hstarts).mpr ⟨root content, mem_cons_self, rfl, Nat.le_trans hd_range.1 hd_range.2⟩
  obtain ⟨outer, home, inner, houter, hscope, hkept, hlast⟩ := held_head hheld
  rw [houter] at hbetween hto_d
  have hhome := (pairwise_cons.mp (pairwise_append.mp hbetween).2.1).1
  have hroot' : root content :: captures = outer ++ home :: (inner ++ d :: (rest ++ r :: behind)) := by
    rw [hroot, houter]
    simp
  have hinner' := innermost_of_held htidy hinside hroot' hscope hdef (Tidy.kept hscope hhome hkept) hlast
  have hsame := hinner.least home hinner'.mem hscope hinner'.contains
  have hle : r.start ≤ home.stop := by
    have h1 := hcontains.2
    have h2 := hsame.2
    omega
  refine ⟨(home, inner ++ d :: rest), mem_held.mpr ⟨outer, ?_, hscope, kept_of_le ?_ hle⟩,
    d.definition content, mem_owned.mpr ⟨inner, d, rest, rfl, hdef, hlast, rfl⟩, hstop, htext.symm⟩
  · rw [hbefore, ← cons_append, houter]
    simp
  intro c hc
  have hall := (pairwise_append.mp (hroot' ▸ htidy)).2.1
  rw [show inner ++ d :: (rest ++ r :: behind) = (inner ++ d :: rest) ++ r :: behind by simp] at hall
  exact ((pairwise_append.mp (pairwise_cons.mp hall).2).2.2 c hc r mem_cons_self).start

/-- What binds a reference reaches it, unless the reference is the definition. -/
theorem reached_of_bound (hnot : ∀ d ∈ captures, d.kind = .definition → d.range ≠ r.range)
    (h : Bound content captures r) : Reached content before r := by
  obtain ⟨d, hd, hdef, htext, hstop, s, hinner, hcontains⟩ := h
  have hne := hnot d hd hdef
  have hd_range := hinside d hd
  have hr_range := hinside r (by simp [hsplit])
  rw [hsplit] at hd
  rcases mem_append.mp hd with hd | hd
  · obtain ⟨between, rest, hbefore⟩ := append_of_mem hd
    exact reached_of_before htidy hinside hsplit hbefore hdef htext hstop hinner hcontains
  rcases mem_cons.mp hd with rfl | hd
  · exact absurd rfl hne
  have hpairs := (pairwise_cons.mp htidy).2
  rw [hsplit] at hpairs
  have hr_d := ((pairwise_cons.mp (pairwise_append.mp hpairs).2.1).1 d hd).start
  have hlength := congrArg length htext
  rw [length_text hd_range.2, length_text hr_range.2] at hlength
  refine absurd ?_ hne
  simp only [Capture.range, Range.mk.injEq]
  omega

end

end Scopes

/-- References are recorded as lexical scope says exactly when the kept scopes bind what the innermost ones
do, and so they are where no capture touches an earlier scope. -/
theorem collectPrepared_follows {content : Bytes} {captures : List Capture} (h : Stream content captures) :
    (Follows content captures ↔ Faithful content captures) ∧
      (Clear captures → Follows content captures) := by
  have hiff := follows_iff h.toInOrder
  refine ⟨hiff, fun hclear => hiff.mpr (fun r hr hkind hnot => ?_)⟩
  have htidy := tidy h hclear
  constructor
  · rintro ⟨before, same, behind, hsplit, hsame, hrange, hreached⟩
    exact (bound_congr hrange).mp (bound_of_reached htidy h.inside hsplit hsame hreached)
  · intro hbound
    obtain ⟨before, behind, hsplit⟩ := append_of_mem hr
    exact ⟨before, r, behind, hsplit, hkind, rfl, reached_of_bound htidy h.inside hsplit hnot hbound⟩

/-- A block and a reference after a gap. -/
theorem gap_follows :
    let content : Bytes := [0x7b, 0x78, 0x7d, 0x20, 0x78]
    let captures : List Capture := [⟨.scope, 0, 3⟩, ⟨.definition, 1, 2⟩, ⟨.reference, 4, 5⟩]
    Stream content captures ∧ Clear captures ∧ Follows content captures := by
  have hstream : Stream [0x7b, 0x78, 0x7d, 0x20, 0x78]
      [⟨.scope, 0, 3⟩, ⟨.definition, 1, 2⟩, ⟨.reference, 4, 5⟩] :=
    ⟨⟨by decide, by decide⟩, by decide⟩
  have hclear : Clear [⟨.scope, 0, 3⟩, ⟨.definition, 1, 2⟩, ⟨.reference, 4, 5⟩] :=
    ⟨by decide, by decide, by decide⟩
  exact ⟨hstream, hclear, (collectPrepared_follows hstream).2 hclear⟩

/-- The same without the gap: the definition of the block captures the name behind it. -/
theorem touching_captures : ¬∀ (content : Bytes) (captures : List Capture),
    Stream content captures → Follows content captures := by
  intro h
  have hstream : Stream [0x7b, 0x78, 0x7d, 0x78]
      [⟨.scope, 0, 3⟩, ⟨.definition, 1, 2⟩, ⟨.reference, 3, 4⟩] :=
    ⟨⟨by decide, by decide⟩, by decide⟩
  have hrecorded : (⟨3, 4⟩ : Range) ∈ collectPrepared [0x7b, 0x78, 0x7d, 0x78]
      [⟨.scope, 0, 3⟩, ⟨.definition, 1, 2⟩, ⟨.reference, 3, 4⟩] := by decide
  rcases (h _ _ hstream ⟨3, 4⟩).mp hrecorded with ⟨d, hd, hdef, hrange⟩ | ⟨r, hr, -, hrange, hbound⟩
  · revert d
    decide
  · obtain ⟨d, hd, hdef, htext, hstop, s, hinner, hcontains⟩ := hbound
    have hblock := hinner.least ⟨.scope, 0, 3⟩ (by decide) rfl
    simp only [mem_cons, not_mem_nil, or_false] at hr hd
    rcases hd with rfl | rfl | rfl
    · cases hdef
    · have hin := hblock ⟨by decide, by decide⟩
      have hr_stop : r.stop = 4 := congrArg Range.stop hrange
      have h1 := hin.2
      have h2 := hcontains.2
      dsimp only at h1
      omega
    · cases hdef

end Bbr.Highlight.Locals

import Bbr.Tui.Keymap

/-!
# What the Resolver resolves

In one Interaction Context the accepted bindings are a prefix-free code, and the Resolver reads it
stroke by stroke. The one key it does not read is Escape: pressed within a sequence it cancels, also
where a binding spells it.
-/
namespace Bbr.Tui.Keymap

open Bbr.Lib List
open Bbr.Diff (ascii)

variable {vaxis : Vaxis} {bindings order : List Binding} {context : InteractionContext}
  {key : KeyStroke} {pending seen left : List Stroke} {resolver : Resolver} {action : Action}

def KeyStroke.stroke (self : KeyStroke) : Stroke := ⟨self.codepoint, self.mods⟩

/-- The sequences that can fire in a context. -/
def code (bindings : List Binding) (context : InteractionContext) : Code Stroke Action :=
  (bindings.filter (fun b => supportsContext b.action context)).map
    (fun b => (b.chord.strokes, b.action))

theorem mem_code {w : List Stroke × Action} : w ∈ code bindings context ↔
    ∃ b ∈ bindings, supportsContext b.action context = true ∧ (b.chord.strokes, b.action) = w := by
  simp only [code, mem_map, mem_filter, and_assoc]

theorem code_cons (b : Binding) : code (b :: bindings) context =
    if supportsContext b.action context then
      (b.chord.strokes, b.action) :: code bindings context
    else code bindings context := by
  unfold code
  rw [filter_cons]
  split
  · rw [map_cons]
  · rfl

theorem code_perm (h : order.Perm bindings) (w : List Stroke × Action) :
    w ∈ code order context ↔ w ∈ code bindings context := by
  rw [mem_code, mem_code]
  constructor
  · rintro ⟨b, hb, hrest⟩
    exact ⟨b, h.mem_iff.mp hb, hrest⟩
  · rintro ⟨b, hb, hrest⟩
    exact ⟨b, h.mem_iff.mpr hb, hrest⟩

theorem mem_contexts (context : InteractionContext) : context ∈ contexts := by
  cases context <;> decide

theorem contextsOverlap_of {a b : Action} (ha : supportsContext a context = true)
    (hb : supportsContext b context = true) : contextsOverlap a b = true := by
  refine any_eq_true.mpr ⟨context, mem_contexts context, ?_⟩
  rw [ha, hb]
  rfl

variable {a b : Binding}

theorem conflict_none (h : conflict a b = none) (hoverlap : contextsOverlap a.action b.action = true)
    (hpre : a.chord.strokes <+: b.chord.strokes ∨ b.chord.strokes <+: a.chord.strokes) :
    (a.chord.strokes, a.action) = (b.chord.strokes, b.action) := by
  unfold conflict at h
  split at h
  · cases h
  rename_i hsame
  by_cases hlen : a.chord.strokes.length = b.chord.strokes.length
  · have heq : a.chord.strokes = b.chord.strokes := by
      cases hpre with
      | inl hp => exact hp.eq_of_length hlen
      | inr hp => exact (hp.eq_of_length hlen.symm).symm
    have haction : a.action = b.action := by
      by_contra hne
      exact hsame ⟨heq, hne, hoverlap⟩
    rw [heq, haction]
  · exfalso
    by_cases hlt : a.chord.strokes.length < b.chord.strokes.length
    · have hp : a.chord.strokes <+: b.chord.strokes := by
        cases hpre with
        | inl hp => exact hp
        | inr hp => exact absurd hp.length_le (by omega)
      have htake := (prefix_iff_eq_take.mp hp).symm
      simp only [if_pos hlt, if_neg hlen, if_pos htake, reduceCtorEq] at h
    · have hp : b.chord.strokes <+: a.chord.strokes := by
        cases hpre with
        | inl hp => exact absurd hp.length_le (by omega)
        | inr hp => exact hp
      have htake := (prefix_iff_eq_take.mp hp).symm
      simp only [if_neg hlt, if_neg (Ne.symm hlen), if_pos htake, reduceCtorEq] at h

theorem validateBindings_cons (h : validateBindings (a :: bindings) = .ok ()) :
    (∀ b ∈ bindings, conflict a b = none) ∧ validateBindings bindings = .ok () := by
  unfold validateBindings at h
  cases hfind : bindings.findSome? (conflict a) with
  | some e => rw [hfind] at h; cases h
  | none =>
    rw [hfind] at h
    exact ⟨fun b hb => findSome?_eq_none_iff.mp hfind b hb, h⟩

theorem code_prefixFree (h : validateBindings bindings = .ok ()) (context : InteractionContext) :
    (code bindings context).PrefixFree := by
  induction bindings with
  | nil => intro v hv; cases hv
  | cons a bindings ih =>
    obtain ⟨hpairs, hrest⟩ := validateBindings_cons h
    have hfree := ih hrest
    rw [code_cons]
    split
    · rename_i ha
      have hhead : ∀ w ∈ code bindings context,
          (a.chord.strokes <+: w.1 ∨ w.1 <+: a.chord.strokes) → (a.chord.strokes, a.action) = w := by
        intro w hw hpre
        obtain ⟨b, hb, hsupports, heq⟩ := mem_code.mp hw
        subst heq
        exact conflict_none (hpairs b hb) (contextsOverlap_of ha hsupports) hpre
      intro v hv w hw hpre
      rcases mem_cons.mp hv with hva | hv
      · rcases mem_cons.mp hw with hwa | hw
        · rw [hva, hwa]
        · subst hva
          exact hhead w hw (.inl hpre)
      · rcases mem_cons.mp hw with hwa | hw
        · subst hwa
          exact (hhead v hv (.inr hpre)).symm
        · exact hfree v hv w hw hpre
    · exact hfree

theorem validate_of_fromOverrides {overrides : List Override}
    (h : fromOverrides vaxis overrides = .ok bindings) : validateBindings bindings = .ok () := by
  unfold fromOverrides at h
  cases happly : applyOverrides vaxis overrides (defaultBindings vaxis) with
  | error e => rw [happly] at h; cases h
  | ok bound =>
    rw [happly] at h
    cases hvalid : validateBindings bound with
    | error e => simp only [hvalid, reduceCtorEq] at h
    | ok u =>
      simp only [hvalid, Except.ok.injEq] at h
      rw [← h]
      exact hvalid

theorem matches_iff {cp : Nat} {mods : Modifiers} :
    key.matches cp mods = true ↔ key.stroke = ⟨cp, mods⟩ := by
  simp [KeyStroke.matches, KeyStroke.stroke]

/-- What one binding makes of a key, in the words of the code. -/
inductive Looks (b : Binding) (context : InteractionContext) (seen : List Stroke) : Look → Prop where
  | skip (h : supportsContext b.action context = true → ¬ seen <+: b.chord.strokes) :
      Looks b context seen .skip
  | expects {stroke : Stroke} (supports : supportsContext b.action context = true)
      (last : seen.getLast? = some stroke) (pre : seen <+: b.chord.strokes)
      (longer : seen ≠ b.chord.strokes) : Looks b context seen (.expects stroke)
  | fires (supports : supportsContext b.action context = true) (whole : seen = b.chord.strokes) :
      Looks b context seen .fires

theorem prefix_concat_iff {stroke : Stroke} {strokes : List Stroke} : pending ++ [stroke] <+: strokes ↔
      strokes.take pending.length = pending ∧ strokes[pending.length]? = some stroke := by
  rw [prefix_iff_eq_take, length_append, length_singleton]
  constructor
  · intro h
    have hle : pending.length < strokes.length := by
      have := congrArg length h
      simp only [length_append, length_singleton, length_take] at this
      omega
    rw [take_add_one, getElem?_eq_getElem hle, Option.toList_some] at h
    obtain ⟨htake, hlast⟩ := append_inj' h rfl
    refine ⟨htake.symm, ?_⟩
    rw [getElem?_eq_getElem hle, head_eq_of_cons_eq hlast]
  · rintro ⟨htake, hget⟩
    rw [take_add_one, htake, hget, Option.toList_some]

theorem look_looks (context : InteractionContext) (pending : List Stroke) (key : KeyStroke)
    (b : Binding) :
    Looks b context (pending ++ [key.stroke]) (b.look context pending key) := by
  unfold Binding.look
  by_cases hs : supportsContext b.action context = true
  · simp only [hs, Bool.not_true, Bool.false_eq_true, if_false]
    by_cases htake : b.chord.strokes.take pending.length = pending
    · rw [if_neg (not_not_intro htake)]
      cases hget : b.chord.strokes[pending.length]? with
      | none =>
        refine .skip (fun _ hpre => ?_)
        rw [(prefix_concat_iff.mp hpre).2] at hget
        cases hget
      | some expected =>
        by_cases hkey : key.matches expected.cp expected.mods = true
        · have hstroke : key.stroke = expected := matches_iff.mp hkey
          have hpre : pending ++ [key.stroke] <+: b.chord.strokes :=
            prefix_concat_iff.mpr ⟨htake, by rw [hstroke]; exact hget⟩
          simp only [hkey, Bool.not_true, Bool.false_eq_true, if_false]
          split
          · rename_i hlen
            exact .fires hs (hpre.eq_of_length (by simpa using hlen))
          · rename_i hlen
            refine .expects hs (by rw [getLast?_concat, hstroke]) hpre (fun heq => hlen ?_)
            rw [← heq, length_append, length_singleton]
        · simp only [hkey, Bool.not_false, if_true]
          refine .skip (fun _ hpre => hkey ?_)
          have hsome := (prefix_concat_iff.mp hpre).2
          rw [hget] at hsome
          exact matches_iff.mpr (Option.some.inj hsome).symm
    · rw [if_pos htake]
      exact .skip (fun _ hpre => htake (prefix_concat_iff.mp hpre).1)
  · simp only [hs, Bool.not_false, if_true]
    exact .skip (fun hsupports => absurd hsupports hs)

variable {matched matched' : Option Stroke}

/-- An Action that the loop comes to is the label of what has been typed. -/
theorem search_fires (h : search context pending key bindings matched = (matched', some action)) :
    (pending ++ [key.stroke], action) ∈ code bindings context := by
  induction bindings generalizing matched with
  | nil => cases h
  | cons b bindings ih =>
    have hlook := look_looks context pending key b
    have hrest : ∀ w ∈ code bindings context, w ∈ code (b :: bindings) context := by
      intro w hw
      rw [code_cons]
      split
      · exact mem_cons_of_mem _ hw
      · exact hw
    unfold search at h
    cases hl : b.look context pending key with
    | skip | expects stroke => rw [hl] at h; exact hrest _ (ih h)
    | fires =>
      rw [hl] at h hlook
      cases hlook with
      | fires hs hwhole =>
        simp only [Prod.mk.injEq, Option.some.injEq] at h
        rw [code_cons, if_pos hs, hwhole, h.2]
        exact mem_cons_self

/-- Where no Action fires, nothing typed is a whole sequence, and the stroke that is kept says
whether a longer one begins so. -/
theorem search_none (h : search context pending key bindings matched = (matched', none)) :
    (∀ a, (pending ++ [key.stroke], a) ∉ code bindings context) ∧
      ((code bindings context).Continues (pending ++ [key.stroke]) → matched' = some key.stroke) ∧
      (¬ (code bindings context).Continues (pending ++ [key.stroke]) → matched' = matched) := by
  induction bindings generalizing matched with
  | nil =>
    cases h
    refine ⟨fun a => not_mem_nil, fun hgoes => ?_, fun _ => rfl⟩
    obtain ⟨w, hw, -⟩ := hgoes
    cases hw
  | cons b bindings ih =>
    have hlook := look_looks context pending key b
    unfold search at h
    cases hl : b.look context pending key with
    | fires => rw [hl] at h; cases h
    | skip =>
      rw [hl] at h hlook
      obtain ⟨hnone, hgoes, hstops⟩ := ih h
      cases hlook with
      | skip hskip =>
        rw [code_cons]
        split
        · rename_i hs
          have hcontinues : Code.Continues ((b.chord.strokes, b.action) :: code bindings context)
              (pending ++ [key.stroke]) ↔
              (code bindings context).Continues (pending ++ [key.stroke]) := by
            constructor
            · rintro ⟨w, hw, hpre, hne⟩
              rcases mem_cons.mp hw with hwb | hw
              · subst hwb
                exact absurd hpre (hskip hs)
              · exact ⟨w, hw, hpre, hne⟩
            · rintro ⟨w, hw, hpre, hne⟩
              exact ⟨w, mem_cons_of_mem _ hw, hpre, hne⟩
          refine ⟨fun a ha => ?_, fun hg => hgoes (hcontinues.mp hg),
            fun hg => hstops (fun hg' => hg (hcontinues.mpr hg'))⟩
          rcases mem_cons.mp ha with hab | ha
          · refine hskip hs ?_
            rw [(Prod.mk.inj hab).1]
          · exact hnone a ha
        · exact ⟨hnone, hgoes, hstops⟩
    | expects stroke =>
      rw [hl] at h hlook
      obtain ⟨hnone, hgoes, hstops⟩ := ih h
      cases hlook with
      | expects hs hlast hpre hlonger =>
        rw [getLast?_concat, Option.some.injEq] at hlast
        have hcontinues : (code (b :: bindings) context).Continues (pending ++ [key.stroke]) := by
          refine ⟨(b.chord.strokes, b.action), ?_, hpre, hlonger⟩
          rw [code_cons, if_pos hs]
          exact mem_cons_self
        refine ⟨fun a ha => ?_, fun _ => ?_, fun hg => absurd hcontinues hg⟩
        · rw [code_cons, if_pos hs] at ha
          rcases mem_cons.mp ha with hab | ha
          · exact hlonger (congrArg Prod.fst hab)
          · exact hnone a ha
        · by_cases hg : (code bindings context).Continues (pending ++ [key.stroke])
          · exact hgoes hg
          · rw [hstops hg, ← hlast]

/-- How the Resolver leaves what has been typed. -/
def Resolver.answer (pending : List Stroke) (stroke : Stroke) : Reading Action → Resolver × Result
  | .dead => ({}, .none)
  | .more => ({ leader := (pending ++ [stroke]).head?.map Stroke.cp,
                pending := pending ++ [stroke] }, .none)
  | .word action => ({}, .action action)

theorem feed_escape (hpending : resolver.pending ≠ []) (hkey : key.matches vaxis.escape {} = true) :
    resolver.feed vaxis bindings context key = ({}, .none) := by
  exact if_pos ⟨length_pos_of_ne_nil hpending, hkey⟩

theorem feed_digit {d : Nat} (hpending : resolver.pending = []) (hkey : key.countDigit = some d) :
    resolver.feed vaxis bindings context key = (resolver, .digit d) := by
  unfold Resolver.feed
  rw [if_neg (by simp [hpending]), if_pos (by simp [hpending]), hkey]

/-- The keys that go to the bindings. -/
def Searched (vaxis : Vaxis) (resolver : Resolver) (key : KeyStroke) : Prop :=
  (resolver.pending ≠ [] → key.matches vaxis.escape {} = false) ∧
    (resolver.pending = [] → key.countDigit = none)

theorem feed_searched (bindings : List Binding) (context : InteractionContext)
    (h : Searched vaxis resolver key) :
    ∃ reading, (code bindings context).Reads (resolver.pending ++ [key.stroke]) reading ∧
      resolver.feed vaxis bindings context key =
        Resolver.answer resolver.pending key.stroke reading := by
  have hescape : ¬ (0 < resolver.pending.length ∧ key.matches vaxis.escape {} = true) := by
    rintro ⟨hlen, hkey⟩
    rw [h.1 (ne_nil_of_length_pos hlen)] at hkey
    cases hkey
  have hdigit : (if resolver.pending.length = 0 then key.countDigit else none) = none := by
    split
    · rename_i hlen
      exact h.2 (eq_nil_of_length_eq_zero hlen)
    · rfl
  unfold Resolver.feed
  rw [if_neg hescape, hdigit]
  cases hsearch : search context resolver.pending key bindings none with
  | mk matched fired =>
    cases fired with
    | some action => exact ⟨.word action, .word (search_fires hsearch), rfl⟩
    | none =>
      obtain ⟨hnone, hgoes, hstops⟩ := search_none hsearch
      by_cases hcontinues : (code bindings context).Continues (resolver.pending ++ [key.stroke])
      · rw [hgoes hcontinues]
        exact ⟨.more, .more hcontinues, rfl⟩
      · rw [hstops hcontinues]
        exact ⟨.dead, .dead hnone hcontinues, rfl⟩

/-- The three ways a key is taken. -/
theorem feed_cases (vaxis : Vaxis) (resolver : Resolver) (key : KeyStroke) :
    (resolver.pending ≠ [] ∧ key.matches vaxis.escape {} = true) ∨
      (resolver.pending = [] ∧ ∃ d, key.countDigit = some d) ∨ Searched vaxis resolver key := by
  by_cases hpending : resolver.pending = []
  · cases hdigit : key.countDigit with
    | some d => exact .inr (.inl ⟨hpending, d, rfl⟩)
    | none => exact .inr (.inr ⟨fun h => absurd hpending h, fun _ => hdigit⟩)
  · cases hkey : key.matches vaxis.escape {} with
    | true => exact .inl ⟨hpending, rfl⟩
    | false => exact .inr (.inr ⟨fun _ => hkey, fun h => absurd h hpending⟩)

theorem feed_bounded (h : resolver.pending.length ≤ 8) :
    (resolver.feed vaxis bindings context key).1.pending.length ≤ 8 := by
  rcases feed_cases vaxis resolver key with ⟨hp, hkey⟩ | ⟨hp, d, hkey⟩ | hsearched
  · rw [feed_escape hp hkey]
    exact Nat.zero_le _
  · rw [feed_digit hp hkey]
    exact h
  obtain ⟨reading, hreads, hfeed⟩ := feed_searched bindings context hsearched
  rw [hfeed]
  cases hreads with
  | dead | word => exact Nat.zero_le _
  | more hgoes =>
    obtain ⟨w, hw, hpre, -⟩ := hgoes
    obtain ⟨b, -, -, heq⟩ := mem_code.mp hw
    subst heq
    exact hpre.length_le.trans b.chord.bounded

theorem feed_perm (hvalid : validateBindings bindings = .ok ()) (h : order.Perm bindings)
    (resolver : Resolver) (context : InteractionContext) (key : KeyStroke) :
    resolver.feed vaxis order context key = resolver.feed vaxis bindings context key := by
  rcases feed_cases vaxis resolver key with ⟨hp, hkey⟩ | ⟨hp, d, hkey⟩ | hsearched
  · rw [feed_escape hp hkey, feed_escape hp hkey]
  · rw [feed_digit hp hkey, feed_digit hp hkey]
  obtain ⟨reading, hreads, hfeed⟩ := feed_searched bindings context hsearched
  obtain ⟨reading', hreads', hfeed'⟩ := feed_searched order context hsearched
  have hsame := (code_prefixFree hvalid context).reads_unique hreads (hreads'.congr (code_perm h))
  rw [hfeed, hfeed', hsame]

theorem run_cons (input : InteractionContext × KeyStroke)
    (inputs : List (InteractionContext × KeyStroke)) :
    resolver.run vaxis bindings (input :: inputs) =
      (((resolver.feed vaxis bindings input.1 input.2).1.run vaxis bindings inputs).1,
        (resolver.feed vaxis bindings input.1 input.2).2 ::
          ((resolver.feed vaxis bindings input.1 input.2).1.run vaxis bindings inputs).2) := rfl

theorem run_bounded (inputs : List (InteractionContext × KeyStroke)) (h : resolver.pending.length ≤ 8) :
    (resolver.run vaxis bindings inputs).1.pending.length ≤ 8 := by
  induction inputs generalizing resolver with
  | nil => exact h
  | cons input inputs ih =>
    exact ih (feed_bounded h)

theorem run_perm (hvalid : validateBindings bindings = .ok ()) (h : order.Perm bindings)
    (inputs : List (InteractionContext × KeyStroke)) :
    resolver.run vaxis order inputs = resolver.run vaxis bindings inputs := by
  induction inputs generalizing resolver with
  | nil => rfl
  | cons input inputs ih =>
    rw [run_cons, run_cons, feed_perm hvalid h, ih]

/-- The keys typed one after the other in one context. -/
def typed (context : InteractionContext) (keys : List KeyStroke) :
    List (InteractionContext × KeyStroke) :=
  keys.map (fun key => (context, key))

variable {keys : List KeyStroke}

theorem run_spelled (hvalid : validateBindings bindings = .ok ()) (hkeys : keys ≠ [])
    (hmem : (resolver.pending ++ keys.map KeyStroke.stroke, action) ∈ code bindings context)
    (hfirst : resolver.pending = [] → ∀ key ∈ keys.head?, key.countDigit = none)
    (hescape : resolver.pending ≠ [] → ∀ key ∈ keys, key.matches vaxis.escape {} = false)
    (htail : ∀ key ∈ keys.tail, key.matches vaxis.escape {} = false) :
    (resolver.run vaxis bindings (typed context keys)).2 =
      List.replicate (keys.length - 1) .none ++ [.action action] := by
  induction keys generalizing resolver with
  | nil => exact absurd rfl hkeys
  | cons key keys ih =>
    have hsearched : Searched vaxis resolver key :=
      ⟨fun hp => hescape hp key mem_cons_self, fun hp => hfirst hp key rfl⟩
    obtain ⟨reading, hreads, hfeed⟩ := feed_searched bindings context hsearched
    have hmem' : ((resolver.pending ++ [key.stroke]) ++ keys.map KeyStroke.stroke, action) ∈
        code bindings context := by
      rw [append_assoc]
      exact hmem
    have hsame := (code_prefixFree hvalid context).reads_unique hreads (Code.reads_of_append hmem')
    rw [typed, map_cons, run_cons, hfeed, hsame]
    cases keys with
    | nil => rfl
    | cons next keys =>
      have hmore : ¬ (next :: keys).map KeyStroke.stroke = [] := cons_ne_nil _ _
      rw [if_neg hmore]
      have hrest := @ih (Resolver.answer resolver.pending key.stroke .more).1
        (cons_ne_nil _ _) hmem' (fun hp => absurd hp (by simp [Resolver.answer]))
        (fun _ => htail) (fun k hk => htail k (mem_of_mem_tail hk))
      rw [typed] at hrest
      rw [hrest]
      rfl

theorem run_digits (hp : resolver.pending = [])
    (hkeys : ∀ key ∈ keys, ∃ d, key.countDigit = some d) (a : Action) :
    Result.action a ∉ (resolver.run vaxis bindings (typed context keys)).2 := by
  induction keys with
  | nil => exact not_mem_nil
  | cons key keys ih =>
    obtain ⟨d, hd⟩ := hkeys key mem_cons_self
    rw [typed, map_cons, run_cons, feed_digit hp hd]
    intro hmem
    rcases mem_cons.mp hmem with heq | hmem
    · cases heq
    · exact ih (fun k hk => hkeys k (mem_cons_of_mem _ hk)) hmem

/-- After an Escape among keys whose text is a digit, the last of them fires nothing. -/
theorem run_escaped (bindings : List Binding) (context : InteractionContext) (resolver : Resolver)
    (hkeys : ∀ key ∈ keys, ∃ d, key.countDigit = some d)
    (hescape : ∃ key ∈ keys, key.matches vaxis.escape {} = true) (a : Action) :
    (resolver.run vaxis bindings (typed context keys)).2.getLast? ≠ some (.action a) := by
  induction keys generalizing resolver with
  | nil =>
    obtain ⟨key, hkey, -⟩ := hescape
    cases hkey
  | cons key keys ih =>
    have hrest : ∀ k ∈ keys, ∃ d, k.countDigit = some d := fun k hk => hkeys k (mem_cons_of_mem _ hk)
    by_cases hp : resolver.pending = []
    · intro hlast
      exact run_digits hp hkeys a (mem_of_getLast? hlast)
    rw [typed, map_cons, run_cons]
    by_cases hkey : key.matches vaxis.escape {} = true
    · rw [feed_escape hp hkey]
      intro hlast
      rcases mem_cons.mp (mem_of_getLast? hlast) with heq | hmem
      · cases heq
      · exact run_digits rfl hrest a hmem
    · have hlater : ∃ k ∈ keys, k.matches vaxis.escape {} = true := by
        obtain ⟨k, hk, hmatches⟩ := hescape
        rcases mem_cons.mp hk with heq | hk
        · rw [heq] at hmatches
          exact absurd hmatches hkey
        · exact ⟨k, hk, hmatches⟩
      have hlast := ih (resolver.feed vaxis bindings context key).1 hrest hlater
      rw [getLast?_cons_of_ne_nil]
      · exact hlast
      · intro hnil
        obtain ⟨k, hk, -⟩ := hlater
        have hlen : keys = [] := by
          cases keys with
          | nil => rfl
          | cons k' keys => rw [map_cons, run_cons] at hnil; cases hnil
        rw [hlen] at hk
        cases hk

/-- The Resolver after these keys. -/
def reached (vaxis : Vaxis) (bindings : List Binding)
    (inputs : List (InteractionContext × KeyStroke)) : Resolver :=
  (Resolver.run vaxis bindings {} inputs).1

/-- An Action, a key that no sequence goes on with, and Escape within a sequence leave nothing
pending. -/
structure Settles (vaxis : Vaxis) (bindings : List Binding) (resolver : Resolver)
    (context : InteractionContext) (key : KeyStroke) : Prop where
  acted : ∀ action, (resolver.feed vaxis bindings context key).2 = .action action →
    (resolver.feed vaxis bindings context key).1.pending = []
  rejected : (resolver.feed vaxis bindings context key).2 = .none →
    ¬ (code bindings context).Continues (resolver.pending ++ [key.stroke]) →
      (resolver.feed vaxis bindings context key).1.pending = []
  cancelled : resolver.pending ≠ [] → key.matches vaxis.escape {} = true →
    resolver.feed vaxis bindings context key = ({}, .none)

/-- Keys are resolved unambiguously and completely, after any keys in any contexts. -/
structure Resolves (vaxis : Vaxis) (bindings : List Binding) : Prop where
  bounded : ∀ inputs, (reached vaxis bindings inputs).pending.length ≤ 8
  unordered : ∀ order : List Binding, order.Perm bindings → ∀ inputs,
    Resolver.run vaxis order {} inputs = Resolver.run vaxis bindings {} inputs
  fires : ∀ inputs, (reached vaxis bindings inputs).pending = [] →
    ∀ binding ∈ bindings, ∀ context, supportsContext binding.action context = true →
    ∀ keys : List KeyStroke, keys.map KeyStroke.stroke = binding.chord.strokes →
    (∀ key ∈ keys.head?, key.countDigit = none) →
      ((reached vaxis bindings inputs).run vaxis bindings (typed context keys)).2 =
        List.replicate (keys.length - 1) .none ++ [.action binding.action]
  settles : ∀ inputs context key, Settles vaxis bindings (reached vaxis bindings inputs) context key

/-- A sequence that Escape cancels before its end. -/
def Chord.spellsEscape (vaxis : Vaxis) (chord : Chord) : Bool :=
  decide (⟨vaxis.escape, {}⟩ ∈ chord.strokes.tail)

theorem settles (resolver : Resolver) (context : InteractionContext) (key : KeyStroke) :
    Settles vaxis bindings resolver context key := by
  refine ⟨fun action hacted => ?_, fun _ hstops => ?_, feed_escape⟩
  · rcases feed_cases vaxis resolver key with ⟨hp, hkey⟩ | ⟨hp, d, hkey⟩ | hsearched
    · rw [feed_escape hp hkey]
    · rw [feed_digit hp hkey]
      exact hp
    obtain ⟨reading, -, hfeed⟩ := feed_searched bindings context hsearched
    rw [hfeed] at hacted ⊢
    cases reading with
    | dead => rfl
    | more => cases hacted
    | word => rfl
  · rcases feed_cases vaxis resolver key with ⟨hp, hkey⟩ | ⟨hp, d, hkey⟩ | hsearched
    · rw [feed_escape hp hkey]
    · rw [feed_digit hp hkey]
      exact hp
    obtain ⟨reading, hreads, hfeed⟩ := feed_searched bindings context hsearched
    rw [hfeed]
    cases hreads with
    | dead => rfl
    | more hgoes => exact absurd hgoes hstops
    | word => rfl

theorem supports_some (action : Action) : contexts.any (supportsContext action) = true := by
  cases action <;> rfl

/-- The key of a stroke, with this text. -/
def Stroke.typed (self : Stroke) (text : Option Bytes) : KeyStroke :=
  { codepoint := self.cp, text := text, mods := self.mods }

theorem typed_strokes (strokes : List Stroke) (text : Option Bytes) :
    (strokes.map (fun s => s.typed text)).map KeyStroke.stroke = strokes := by
  rw [map_map]
  exact map_id strokes

/-- Where a binding spells Escape within its sequence, the sequence does not fire it. -/
theorem not_resolves (hb : b ∈ bindings) (hescape : b.chord.spellsEscape vaxis = true) :
    ¬ Resolves vaxis bindings := by
  intro h
  obtain ⟨context, -, hsupports⟩ := any_eq_true.mp (supports_some b.action)
  cases hstrokes : b.chord.strokes with
  | nil => exact b.chord.nonempty hstrokes
  | cons first strokes =>
    rw [Chord.spellsEscape, hstrokes, tail_cons, decide_eq_true_eq] at hescape
    have hfires := h.fires [] rfl b hb context hsupports
      (first.typed none :: strokes.map (fun s => s.typed (some [0x30])))
      (by rw [map_cons, typed_strokes, hstrokes]; rfl) (by rintro key ⟨⟩; rfl)
    have hdigits : ∀ key ∈ strokes.map (fun s => s.typed (some [0x30])),
        ∃ d, key.countDigit = some d := by
      intro key hkey
      obtain ⟨s, -, rfl⟩ := mem_map.mp hkey
      exact ⟨0, rfl⟩
    have hcancel : ∃ key ∈ strokes.map (fun s => s.typed (some [0x30])),
        key.matches vaxis.escape {} = true :=
      ⟨_, mem_map.mpr ⟨_, hescape, rfl⟩, matches_iff.mpr rfl⟩
    rw [typed, map_cons, run_cons] at hfires
    have hlast := run_escaped bindings context
      ((reached vaxis bindings []).feed vaxis bindings context (first.typed none)).1
      hdigits hcancel b.action
    rw [typed] at hlast
    have htail := congrArg tail hfires
    rw [tail_cons] at htail
    rw [htail] at hlast
    cases strokes with
    | nil => cases hescape
    | cons s strokes =>
      apply hlast
      rw [length_cons, Nat.add_sub_cancel, length_map, length_cons,
        replicate_succ, cons_append, tail_cons, getLast?_concat]

/-- An accepted keymap resolves every sequence it binds if and only if none of them spells Escape
after its first stroke. -/
theorem resolves_iff (overrides : List Override)
    (h : fromOverrides vaxis overrides = .ok bindings) :
    Resolves vaxis bindings ↔ ∀ binding ∈ bindings, binding.chord.spellsEscape vaxis = false := by
  have hvalid := validate_of_fromOverrides h
  constructor
  · intro hresolves b hb
    cases hescape : b.chord.spellsEscape vaxis with
    | false => rfl
    | true => exact absurd hresolves (not_resolves hb hescape)
  · intro hescape
    constructor
    case bounded =>
      intro inputs
      exact run_bounded inputs (Nat.zero_le _)
    case unordered =>
      intro order hperm inputs
      exact run_perm hvalid hperm inputs
    case settles =>
      intro inputs context key
      exact settles _ context key
    case fires =>
      intro inputs hp b hb context hsupports keys hkeys hfirst
      have hmem : ((reached vaxis bindings inputs).pending ++ keys.map KeyStroke.stroke, b.action) ∈
          code bindings context := by
        rw [hp, hkeys]
        exact mem_code.mpr ⟨b, hb, hsupports, rfl⟩
      have hne : keys ≠ [] := by
        rintro rfl
        exact b.chord.nonempty hkeys.symm
      have htail : ∀ key ∈ keys.tail, key.matches vaxis.escape {} = false := by
        intro key hkey
        cases hmatches : key.matches vaxis.escape {} with
        | false => rfl
        | true =>
          have hnot := hescape b hb
          rw [Chord.spellsEscape, decide_eq_false_iff_not, ← hkeys, ← map_tail] at hnot
          exact absurd (mem_map.mpr ⟨key, hkey, matches_iff.mp hmatches⟩) hnot
      exact run_spelled hvalid hne hmem (fun _ => hfirst) (fun hpending => absurd hp hpending) htail

/-- The codes that the terminal library gives its keys. -/
def terminal : Vaxis where
  escape := 0x1b
  enter := 0x0d
  tab := 0x09
  backspace := 0x7f
  insert := 57348
  delete := 57349
  left := 57350
  right := 57351
  up := 57352
  down := 57353
  pageUp := 57354
  pageDown := 57355
  home := 57356
  end_ := 57357
  f1 := 57364

theorem fromOverrides_terminal : fromOverrides terminal [] = .ok (defaultBindings terminal) := by
  have hvalid : validateBindings (defaultBindings terminal) = .ok () := by decide +kernel
  unfold fromOverrides
  simp only [applyOverrides, hvalid]

theorem resolves_default : Resolves terminal (defaultBindings terminal) :=
  (resolves_iff [] fromOverrides_terminal).mpr (by decide +kernel)

/-- The bindings that an accepted keymap ends up with. -/
def accepted (vaxis : Vaxis) (overrides : List Override) : List Binding :=
  match fromOverrides vaxis overrides with
  | .ok bindings => bindings
  | .error _ => []

/-- Space, Escape is accepted as the sequence of an Action and never fires it. -/
theorem escape_unresolved :
    ∃ bindings, fromOverrides terminal [⟨ascii "review_comment", [ascii "space escape"]⟩] =
      .ok bindings ∧ ¬ Resolves terminal bindings := by
  have hspelled : (accepted terminal [⟨ascii "review_comment", [ascii "space escape"]⟩]).any
      (fun binding => binding.chord.spellsEscape terminal) = true := by decide +kernel
  obtain ⟨b, hb, hescape⟩ := any_eq_true.mp hspelled
  unfold accepted at hb
  cases h : fromOverrides terminal [⟨ascii "review_comment", [ascii "space escape"]⟩] with
  | error e => rw [h] at hb; cases hb
  | ok bindings =>
    rw [h] at hb
    exact ⟨bindings, rfl, not_resolves hb hescape⟩

end Bbr.Tui.Keymap

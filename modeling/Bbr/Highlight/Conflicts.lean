import Bbr.Highlight.RuleNames
import Bbr.Highlight.TrustLaws
import Bbr.Lib.Utf8

/-!
# Conflicts are found exactly

Two rule sets conflict when a path and a content match both. Where no two enabled installations do,
what is selected does not depend on their order.
-/
namespace Bbr.Highlight

open List Registry

open Bbr.Diff (ascii)

def ruleMatches (rules : GrammarMatches) (path content : Bytes) : Bool :=
  matchKinds.any (fun kind => matchesKind rules kind path content)

/-- The rule sets are compared in pairs; the names are only counted. -/
def validateActiveConflicts : List GrammarMatches → Except GrammarError Unit
  | [] => .ok ()
  | left :: rest =>
    if rest.any (rulesOverlap left) then .error .userGrammarConflict
    else validateActiveConflicts rest

/-- A name that the file names, compound suffixes or extensions match. -/
def MatchesName (rules : GrammarMatches) (name : Bytes) : Prop :=
  name ∈ rules.filenames ∨ (∃ suffix ∈ rules.compoundSuffixes, suffix <:+ name) ∨
    extension name ∈ rules.extensions

def MatchesLine (rules : GrammarMatches) (line : Bytes) : Prop :=
  ∃ shebang ∈ rules.shebangs, shebang <+: line

variable {rules : GrammarMatches} {path content : Bytes}

theorem ruleMatches_iff : ruleMatches rules path content = true ↔
      MatchesName rules (basename path) ∨ MatchesLine rules (firstLine content) := by
  simp [ruleMatches, matchKinds, matchesKind, MatchesName, MatchesLine, endsWith, or_assoc]

theorem hasPathRules_iff : hasPathRules rules = true ↔
    rules.filenames ≠ [] ∨ rules.compoundSuffixes ≠ [] ∨ rules.extensions ≠ [] := by
  rw [hasPathRules, decide_eq_true_eq, ← length_pos_iff, ← length_pos_iff, ← length_pos_iff]
  omega

variable {name : Bytes}

theorem MatchesName.hasPathRules (h : MatchesName rules name) : hasPathRules rules = true := by
  rw [hasPathRules_iff]
  obtain hfile | ⟨suffix, hsuffix, _⟩ | hext := h
  · exact .inl (ne_nil_of_mem hfile)
  · exact .inr (.inl (ne_nil_of_mem hsuffix))
  · exact .inr (.inr (ne_nil_of_mem hext))

/-- No rule for names holds a separator of paths. -/
structure NoSlash (rules : GrammarMatches) : Prop where
  filenames : ∀ rule ∈ rules.filenames, slash ∉ rule
  compoundSuffixes : ∀ rule ∈ rules.compoundSuffixes, slash ∉ rule
  extensions : ∀ rule ∈ rules.extensions, slash ∉ rule

variable {left right : GrammarMatches}

theorem listsOverlap_iff {overlap : Bytes → Bytes → Bool} {left right : List Bytes} :
    listsOverlap overlap left right = true ↔ ∃ l ∈ left, ∃ r ∈ right, overlap l r = true := by
  simp [listsOverlap]

theorem ruleListsOverlap_iff {left right : List Bytes} :
    ruleListsOverlap left right = true ↔ ∃ rule ∈ left, rule ∈ right := by
  simp [ruleListsOverlap, listsOverlap]

theorem suffixListsOverlap_iff {left right : List Bytes} : suffixListsOverlap left right = true ↔
    ∃ l ∈ left, ∃ r ∈ right, r <:+ l ∨ l <:+ r := by
  simp [suffixListsOverlap, listsOverlap, endsWith]

theorem prefixListsOverlap_iff {left right : List Bytes} : prefixListsOverlap left right = true ↔
    ∃ l ∈ left, ∃ r ∈ right, r <+: l ∨ l <+: r := by
  simp [prefixListsOverlap, listsOverlap]

variable {narrow wide : GrammarMatches}

/-- A name or suffix on one side for which a wider rule on the other side holds. -/
theorem takesOver_iff : takesOver narrow wide = true ↔
    ∃ filename ∈ narrow.filenames, (∃ suffix ∈ wide.compoundSuffixes, suffix <:+ filename) ∨
      extension filename ∈ wide.extensions := by
  simp only [takesOver, Bool.or_eq_true, listsOverlap_iff, endsWith, isSuffixOf_iff_suffix,
    decide_eq_true_eq]
  constructor
  · intro h
    cases h with
    | inl h =>
      obtain ⟨filename, hfilename, hsuffix⟩ := h
      exact ⟨filename, hfilename, .inl hsuffix⟩
    | inr h =>
      obtain ⟨filename, hfilename, ext, hext, heq⟩ := h
      exact ⟨filename, hfilename, .inr (heq ▸ hext)⟩
  · intro ⟨filename, hfilename, h⟩
    cases h with
    | inl hsuffix => exact .inl ⟨filename, hfilename, hsuffix⟩
    | inr hext => exact .inr ⟨filename, hfilename, _, hext, rfl⟩

/-- A compound suffix with an extension of the other side. -/
def SuffixHasExtension (left right : GrammarMatches) : Prop :=
  ∃ suffix ∈ left.compoundSuffixes, extension suffix ∈ right.extensions

theorem suffixHasExtension_iff :
    listsOverlap (fun suffix ext => extension suffix = ext) left.compoundSuffixes
      right.extensions = true ↔ SuffixHasExtension left right := by
  simp [listsOverlap, SuffixHasExtension]

theorem rulesOverlap_iff : rulesOverlap left right = true ↔
    (∃ name ∈ left.filenames, name ∈ right.filenames) ∨
    (∃ l ∈ left.compoundSuffixes, ∃ r ∈ right.compoundSuffixes, r <:+ l ∨ l <:+ r) ∨
    (∃ ext ∈ left.extensions, ext ∈ right.extensions) ∨
    (∃ l ∈ left.shebangs, ∃ r ∈ right.shebangs, r <+: l ∨ l <+: r) ∨
    takesOver left right = true ∨ takesOver right left = true ∨
    SuffixHasExtension left right ∨ SuffixHasExtension right left ∨
    (hasPathRules left = true ∧ right.shebangs ≠ []) ∨
    (hasPathRules right = true ∧ left.shebangs ≠ []) := by
  simp only [rulesOverlap, Bool.or_eq_true, Bool.and_eq_true, Bool.not_eq_true',
    ruleListsOverlap_iff, suffixListsOverlap_iff, prefixListsOverlap_iff, suffixHasExtension_iff,
    isEmpty_eq_false_iff, or_assoc]

/-- A name that rules of both sides match is found in a pair of their rules. -/
theorem rulesOverlap_of_name (hleft : ValidRules left) (hright : ValidRules right)
    (hslash : slash ∉ name) (hl : MatchesName left name) (hr : MatchesName right name) :
    rulesOverlap left right = true := by
  rw [rulesOverlap_iff]
  obtain hl | ⟨l, hlmem, hl⟩ | hl := hl
  · obtain hr | hr | hr := hr
    · exact .inl ⟨name, hl, hr⟩
    · exact .inr (.inr (.inr (.inr (.inl (takesOver_iff.mpr ⟨name, hl, .inl hr⟩)))))
    · exact .inr (.inr (.inr (.inr (.inl (takesOver_iff.mpr ⟨name, hl, .inr hr⟩)))))
  · have hext := extension_of_suffix (hleft.compoundSuffixes l hlmem) hslash hl
    obtain hr | ⟨r, hrmem, hr⟩ | hr := hr
    · exact .inr (.inr (.inr (.inr (.inr (.inl (takesOver_iff.mpr ⟨name, hr, .inl ⟨l, hlmem, hl⟩⟩))))))
    · exact .inr (.inl ⟨l, hlmem, r, hrmem, suffix_or_suffix_of_suffix hr hl⟩)
    · rw [hext] at hr
      exact .inr (.inr (.inr (.inr (.inr (.inr (.inl ⟨l, hlmem, hr⟩))))))
  · obtain hr | ⟨r, hrmem, hr⟩ | hr := hr
    · exact .inr (.inr (.inr (.inr (.inr (.inl (takesOver_iff.mpr ⟨name, hr, .inr hl⟩))))))
    · have hext := extension_of_suffix (hright.compoundSuffixes r hrmem) hslash hr
      rw [hext] at hl
      exact .inr (.inr (.inr (.inr (.inr (.inr (.inr (.inl ⟨r, hrmem, hl⟩)))))))
    · exact .inr (.inr (.inl ⟨_, hl, hr⟩))

/-- A name without separators that both sides match. -/
def SharedName (left right : GrammarMatches) : Prop :=
  ∃ name, slash ∉ name ∧ MatchesName left name ∧ MatchesName right name

theorem SharedName.symm (h : SharedName left right) : SharedName right left := by
  obtain ⟨name, hslash, hl, hr⟩ := h
  exact ⟨name, hslash, hr, hl⟩

theorem sharedName_of_takesOver (hslash : NoSlash narrow) (h : takesOver narrow wide = true) :
    SharedName narrow wide := by
  obtain ⟨filename, hfilename, h⟩ := takesOver_iff.mp h
  exact ⟨filename, hslash.filenames filename hfilename, .inl hfilename, .inr h⟩

theorem sharedName_of_suffixHasExtension (hslash : NoSlash left)
    (h : SuffixHasExtension left right) : SharedName left right := by
  obtain ⟨suffix, hsuffix, hext⟩ := h
  exact ⟨suffix, hslash.compoundSuffixes suffix hsuffix,
    .inr (.inl ⟨suffix, hsuffix, suffix_refl suffix⟩), .inr (.inr hext)⟩

theorem matchesName_of_extension (hvalid : ValidRules rules)
    (hslash : NoSlash rules) {ext : Bytes} (h : ext ∈ rules.extensions) :
    slash ∉ (0x78 :: ext : Bytes) ∧ MatchesName rules (0x78 :: ext) := by
  have hno := hslash.extensions ext h
  constructor
  · rw [mem_cons, not_or]
    exact ⟨by decide, hno⟩
  · refine .inr (.inr ?_)
    rw [extension_of_extension (hvalid.extensions ext h) hno]
    exact h

theorem exists_name (hvalid : ValidRules rules) (hslash : NoSlash rules)
    (h : hasPathRules rules = true) : ∃ name, slash ∉ name ∧ MatchesName rules name := by
  obtain hfile | hsuffix | hext := hasPathRules_iff.mp h
  · obtain ⟨filename, hfilename⟩ := exists_mem_of_ne_nil _ hfile
    exact ⟨filename, hslash.filenames filename hfilename, .inl hfilename⟩
  · obtain ⟨suffix, hsuffix⟩ := exists_mem_of_ne_nil _ hsuffix
    exact ⟨suffix, hslash.compoundSuffixes suffix hsuffix,
      .inr (.inl ⟨suffix, hsuffix, suffix_refl suffix⟩)⟩
  · obtain ⟨ext, hext⟩ := exists_mem_of_ne_nil _ hext
    exact ⟨_, matchesName_of_extension hvalid hslash hext⟩

theorem ValidRule.firstLine {kind : RuleKind} {rule : Bytes} (h : ValidRule kind rule) :
    Highlight.firstLine rule = rule := by
  have hplain := h.plain
  rw [hasTerminalControl] at hplain
  split at hplain
  · simp at hplain
  rename_i points hpoints
  obtain ⟨s, hs, rfl⟩ := Option.map_eq_some_iff.mp hpoints
  rw [Highlight.firstLine, takeWhile_eq_self_iff]
  intro c hc
  simp only [decide_eq_true_eq]
  rintro rfl
  obtain ⟨char, hchar, heq⟩ := Lib.mem_toList_of_mem hs hc (by decide)
  have hcontrol : terminalControl char.toNat = true := by rw [heq]; decide
  have hany : (s.toList.map Char.toNat).any terminalControl = true :=
    any_eq_true.mpr ⟨char.toNat, mem_map.mpr ⟨char, hchar, rfl⟩, hcontrol⟩
  rw [hany] at hplain
  exact absurd hplain (by simp)

/-- A path and a content that both rule sets match. -/
def BothMatch (left right : GrammarMatches) : Prop :=
  ∃ path content, ruleMatches left path content = true ∧ ruleMatches right path content = true

theorem BothMatch.symm (h : BothMatch left right) : BothMatch right left := by
  obtain ⟨path, content, hl, hr⟩ := h
  exact ⟨path, content, hr, hl⟩

theorem SharedName.bothMatch (h : SharedName left right) : BothMatch left right := by
  obtain ⟨name, hslash, hl, hr⟩ := h
  refine ⟨name, [], ruleMatches_iff.mpr (.inl ?_), ruleMatches_iff.mpr (.inl ?_)⟩
  · rwa [basename_eq hslash]
  · rwa [basename_eq hslash]

theorem ruleMatches_line {shebang line path : Bytes}
    (hmem : shebang ∈ rules.shebangs) (hline : firstLine line = line) (h : shebang <+: line) :
    ruleMatches rules path line = true := by
  refine ruleMatches_iff.mpr (.inr ⟨shebang, hmem, ?_⟩)
  rwa [hline]

section

variable (hleft : ValidRules left) (hright : ValidRules right)
include hleft hright

theorem bothMatch_shebangs {l r : Bytes}
    (hl : l ∈ left.shebangs) (hr : r ∈ right.shebangs) (h : r <+: l ∨ l <+: r) :
    BothMatch left right := by
  cases h with
  | inl h =>
    have hline := (hleft.shebangs l hl).firstLine
    exact ⟨[], l, ruleMatches_line hl hline (prefix_refl l), ruleMatches_line hr hline h⟩
  | inr h =>
    have hline := (hright.shebangs r hr).firstLine
    exact ⟨[], r, ruleMatches_line hl hline h, ruleMatches_line hr hline (prefix_refl r)⟩

/-- A name on one side and the first line on the other are chosen freely. -/
theorem bothMatch_mixed (hslash : NoSlash left)
    (hnames : hasPathRules left = true) (hshebangs : right.shebangs ≠ []) :
    BothMatch left right := by
  obtain ⟨name, hno, hname⟩ := exists_name hleft hslash hnames
  obtain ⟨shebang, hshebang⟩ := exists_mem_of_ne_nil _ hshebangs
  refine ⟨name, shebang, ruleMatches_iff.mpr (.inl ?_),
    ruleMatches_line hshebang (hright.shebangs shebang hshebang).firstLine (prefix_refl shebang)⟩
  rwa [basename_eq hno]

theorem rulesOverlap_of_bothMatch (h : BothMatch left right) : rulesOverlap left right = true := by
  obtain ⟨path, content, hl, hr⟩ := h
  obtain hl | ⟨l, hlmem, hl⟩ := ruleMatches_iff.mp hl
  · obtain hr | ⟨r, hrmem, _⟩ := ruleMatches_iff.mp hr
    · exact rulesOverlap_of_name hleft hright (slash_not_mem_basename path) hl hr
    · simp [rulesOverlap_iff, hl.hasPathRules, ne_nil_of_mem hrmem]
  · obtain hr | ⟨r, hrmem, hr⟩ := ruleMatches_iff.mp hr
    · simp [rulesOverlap_iff, hr.hasPathRules, ne_nil_of_mem hlmem]
    · exact rulesOverlap_iff.mpr (.inr (.inr (.inr (.inl
        ⟨l, hlmem, r, hrmem, prefix_or_prefix_of_prefix hr hl⟩))))

theorem bothMatch_of_rulesOverlap
    (hnoleft : NoSlash left) (hnoright : NoSlash right) (h : rulesOverlap left right = true) :
    BothMatch left right := by
  obtain ⟨name, hl, hr⟩ | ⟨l, hl, r, hr, h⟩ | ⟨ext, hl, hr⟩ | ⟨l, hl, r, hr, h⟩ | h | h | h | h |
    ⟨hnames, hshebangs⟩ | ⟨hnames, hshebangs⟩ := rulesOverlap_iff.mp h
  · exact SharedName.bothMatch ⟨name, hnoleft.filenames name hl, .inl hl, .inl hr⟩
  · cases h with
    | inl h => exact SharedName.bothMatch ⟨l, hnoleft.compoundSuffixes l hl,
        .inr (.inl ⟨l, hl, suffix_refl l⟩), .inr (.inl ⟨r, hr, h⟩)⟩
    | inr h => exact SharedName.bothMatch ⟨r, hnoright.compoundSuffixes r hr,
        .inr (.inl ⟨l, hl, h⟩), .inr (.inl ⟨r, hr, suffix_refl r⟩)⟩
  · obtain ⟨hno, hmatch⟩ := matchesName_of_extension hleft hnoleft hl
    exact SharedName.bothMatch ⟨_, hno, hmatch, (matchesName_of_extension hright hnoright hr).2⟩
  · exact bothMatch_shebangs hleft hright hl hr h
  · exact (sharedName_of_takesOver hnoleft h).bothMatch
  · exact (sharedName_of_takesOver hnoright h).symm.bothMatch
  · exact (sharedName_of_suffixHasExtension hnoleft h).bothMatch
  · exact (sharedName_of_suffixHasExtension hnoright h).symm.bothMatch
  · exact bothMatch_mixed hleft hright hnoleft hnames hshebangs
  · exact (bothMatch_mixed hright hleft hnoright hnames hshebangs).symm

end

theorem validateActiveConflicts_two : validateActiveConflicts [left, right] =
    .error .userGrammarConflict ↔ rulesOverlap left right = true := by
  cases h : rulesOverlap left right <;> simp [validateActiveConflicts, h]

variable {Digest Language Package : Type} [DecidableEq Digest]
  {setup : Setup Digest Language Package}

variable {installations : List (Installation Digest Package)}

omit [DecidableEq Digest] in
theorem conflicting_eq_false : conflicting installations = false ↔ installations.Pairwise (fun a b =>
      a.enabled = true → b.enabled = true → rulesOverlap a.rules b.rules = false) := by
  induction installations with
  | nil => simp [conflicting]
  | cons first rest ih =>
    simp only [conflicting, Bool.or_eq_false_iff, ih, pairwise_cons, Bool.and_eq_false_iff,
      any_eq_false, Bool.and_eq_true, not_and, Bool.not_eq_true]
    refine and_congr_left (fun _ => ?_)
    constructor
    · intro h other hother hfirst
      cases h with
      | inl hoff => simp [hoff] at hfirst
      | inr hrest => exact hrest other hother
    · intro h
      by_cases hfirst : first.enabled = true
      · exact .inr (fun other hother => h other hother hfirst)
      · exact .inl (by simpa using hfirst)

theorem effectiveRules_valid {defaults : GrammarMatches} {overrides : List MatchOverride}
    (hdefaults : ValidRules defaults) (h : effectiveRules name defaults overrides = .ok rules) :
    ValidRules rules := by
  induction overrides with
  | nil =>
    cases h
    exact hdefaults
  | cons override overrides ih =>
    rw [effectiveRules] at h
    split at h
    · exact ih h
    · obtain ⟨⟨⟩, hvalid, h⟩ := Lib.bind_ok h
      cases h
      exact validateRules_ok hvalid

omit [DecidableEq Digest] in
theorem validateManifest_valid {target : Target} {manifest : Manifest Digest}
    (h : validateManifest target manifest = .ok ()) : ValidRules manifest.rules := by
  rw [validateManifest] at h
  split at h
  · cases h
  split at h
  · cases h
  split at h
  · cases h
  split at h
  · cases h
  split at h
  · cases h
  split at h
  · cases h
  split at h
  · cases h
  · split at h
    · cases h
    · exact validateRules_ok h

theorem inspect_valid {n : Nat} {path : Bytes} {inspection : Inspection Digest}
    (h : inspect setup.sha setup.target setup.io n path = .ok inspection) :
    ValidRules inspection.report.rules := by
  obtain ⟨files, _, h⟩ := Lib.bind_ok h
  rw [inspectFiles] at h
  split at h
  · cases h
  obtain ⟨manifest, _, h⟩ := Lib.bind_ok h
  obtain ⟨⟨⟩, hvalid, h⟩ := Lib.bind_ok h
  obtain ⟨⟨⟩, _, h⟩ := Lib.bind_ok h
  split at h
  · cases h
  · cases h
    exact validateManifest_valid hvalid

theorem install_valid {n : Nat} {entry : RegistryEntry Digest} {opened : Opened}
    {installation : Installation Digest Package}
    (h : (install setup n entry opened).2 = .ok installation) (henabled : installation.enabled = true) :
    ValidRules installation.rules := by
  rw [install] at h
  split at h
  · split at h
    · cases h
    · cases h
      simp at henabled
  rename_i inspection hinspect
  split at h
  · simp only at h
    split at h
    · split at h <;> cases h
    · cases h
      simp at henabled
  · split at h
    · cases h
    rename_i rules hrules
    have hvalid := effectiveRules_valid (inspect_valid hinspect) hrules
    split at h
    · split at h
      · cases h
      · cases h
        exact hvalid
    · cases h
      exact hvalid

variable {entries : List (RegistryEntry Digest)}

theorem installAll_valid {n : Nat} {opened : Opened}
    (h : (installAll setup n entries opened).2 = .ok installations) :
    ∀ i ∈ installations, i.enabled = true → ValidRules i.rules := by
  induction entries generalizing n opened installations with
  | nil =>
    cases h
    simp
  | cons entry entries ih =>
    rw [installAll] at h
    cases hfirst : install setup n entry opened with
    | mk opened' result =>
      rw [hfirst] at h
      cases result with
      | error e => cases h
      | ok installation =>
        simp only at h
        cases hrest : installAll setup (n + 1) entries opened' with
        | mk opened'' rest =>
          rw [hrest] at h
          cases rest with
          | error e => cases h
          | ok rest =>
            cases h
            intro i hi
            cases hi with
            | head => exact install_valid (congrArg Prod.snd hfirst)
            | tail _ hi => exact ih (congrArg Prod.snd hrest) i hi

/-- What the conflicts and the selection look at. -/
def Installation.shown (self : Installation Digest Package) : Bool × GrammarMatches :=
  (self.enabled, self.rules)

omit [DecidableEq Digest] in
theorem load_shown (installation : Installation Digest Package) (opened : Opened) :
    (load setup installation opened).2.1.shown = installation.shown := by
  rw [load]
  split
  · rfl
  split
  · rfl
  split
  · rfl
  split
  · rfl
  · split
    · rfl
    · split <;> rfl

omit [DecidableEq Digest] in
theorem loadAll_shown (installations : List (Installation Digest Package)) (opened : Opened) :
    (loadAll setup installations opened).2.map Installation.shown =
      installations.map Installation.shown := by
  induction installations generalizing opened with
  | nil => rfl
  | cons first rest ih =>
    rw [loadAll]
    split
    · have hfirst : (load setup first opened).2.1.shown = first.shown := load_shown first opened
      cases hload : load setup first opened with
      | mk opened' loaded =>
        rw [hload] at hfirst
        cases hresult : loaded.2 with
        | error e => simpa [hresult, ih, Installation.shown] using hfirst
        | ok package => simpa [hresult, ih] using hfirst
    · simp [ih]

/-- The installation is enabled and matches the File. -/
def Installation.Takes (self : Installation Digest Package) (path content : Bytes) : Prop :=
  self.shown.1 = true ∧ ruleMatches self.shown.2 path content = true

def Exclusive (a b : Bool × GrammarMatches) : Prop :=
  ∀ path content, a.1 = true ∧ ruleMatches a.2 path content = true →
    ¬(b.1 = true ∧ ruleMatches b.2 path content = true)

theorem Exclusive.symm {a b : Bool × GrammarMatches} (h : Exclusive a b) : Exclusive b a :=
  fun path content hb ha => h path content ha hb

/-- The enabled installations of a registry have no File in common. -/
theorem init_exclusive (h : (init setup entries).2 = .ok installations) :
    (installations.map Installation.shown).Pairwise Exclusive := by
  rw [init] at h
  cases hall : installAll setup 0 entries [] with
  | mk opened result =>
    rw [hall] at h
    cases result with
    | error e => cases h
    | ok installed =>
      have hvalid := installAll_valid (congrArg Prod.snd hall)
      simp only at h
      split at h
      · cases h
      rename_i hclear
      cases h
      rw [loadAll_shown, pairwise_map]
      have hpairs := conflicting_eq_false.mp (by simpa using hclear)
      refine hpairs.imp_of_mem (fun {a b} ha hb hapart path content hta htb => ?_)
      have hoverlap := rulesOverlap_of_bothMatch (hvalid a ha hta.1) (hvalid b hb htb.1)
        ⟨path, content, hta.2, htb.2⟩
      rw [hapart hta.1 htb.1] at hoverlap
      exact absurd hoverlap (by simp)

variable {i : Nat} {a : Installation Digest Package}

omit [DecidableEq Digest] in
/-- Where the installations have no File in common, at most one place matches. -/
theorem takes_unique (h : (installations.map Installation.shown).Pairwise Exclusive) {j : Nat}
    {b : Installation Digest Package} (hi : installations[i]? = some a)
    (hj : installations[j]? = some b) (ha : a.Takes path content) (hb : b.Takes path content) :
    i = j := by
  obtain ⟨hilt, rfl⟩ := List.getElem?_eq_some_iff.mp hi
  obtain ⟨hjlt, rfl⟩ := List.getElem?_eq_some_iff.mp hj
  rw [List.pairwise_map, List.pairwise_iff_getElem] at h
  by_contra hne
  cases Nat.lt_or_gt_of_ne hne with
  | inl hlt => exact h i j hilt hjlt hlt path content ha hb
  | inr hgt => exact h j i hjlt hilt hgt path content hb ha

omit [DecidableEq Digest] in
theorem takes_of_select (h : select installations path content = some i) :
    ∃ a, installations[i]? = some a ∧ a.Takes path content := by
  obtain ⟨kind, hkind, hfind⟩ := exists_of_findSome?_eq_some h
  obtain ⟨hlt, hp, _⟩ := findIdx?_eq_some_iff_getElem.mp hfind
  rw [Bool.and_eq_true] at hp
  exact ⟨installations[i], getElem?_eq_getElem hlt, hp.1, any_eq_true.mpr ⟨kind, hkind, hp.2⟩⟩

omit [DecidableEq Digest] in
theorem select_isSome (hmem : a ∈ installations) (ha : a.Takes path content) :
    (select installations path content).isSome := by
  obtain ⟨kind, hkind, hmatch⟩ := any_eq_true.mp ha.2
  rw [select, findSome?_isSome_iff]
  refine ⟨kind, hkind, ?_⟩
  rw [findIdx?_isSome, any_eq_true]
  exact ⟨a, hmem, Bool.and_eq_true_iff.mpr ⟨ha.1, hmatch⟩⟩

omit [DecidableEq Digest] in
theorem select_iff (h : (installations.map Installation.shown).Pairwise Exclusive) :
    select installations path content = some i ↔
      ∃ a, installations[i]? = some a ∧ a.Takes path content := by
  constructor
  · exact takes_of_select
  intro ⟨a, hi, ha⟩
  obtain ⟨j, hj⟩ := Option.isSome_iff_exists.mp (select_isSome (mem_of_getElem? hi) ha)
  obtain ⟨b, hb, htakes⟩ := takes_of_select hj
  rw [hj, takes_unique h hb hi htakes ha]

/-- Two valid rule sets conflict exactly when they share a File. In a registry, in whatever order,
each File is matched by at most one enabled installation, which is the one that is selected. -/
theorem validateActiveConflicts_exact :
    (∀ left right : GrammarMatches, validateRules left = .ok () → validateRules right = .ok () →
      NoSlash left → NoSlash right →
      (validateActiveConflicts [left, right] = .error .userGrammarConflict ↔
        BothMatch left right)) ∧
    ∀ {Digest Language Package : Type} [DecidableEq Digest] (setup : Setup Digest Language Package)
      (entries : List (RegistryEntry Digest)) (installations : List (Installation Digest Package)),
      (Registry.init setup entries).2 = .ok installations →
      ∀ ordered : List (Installation Digest Package), ordered.Perm installations → ∀ path content,
        (∀ (i j : Nat) (a b : Installation Digest Package), ordered[i]? = some a → ordered[j]? = some b →
          a.Takes path content → b.Takes path content → i = j) ∧
        ∀ i, select ordered path content = some i ↔
          ∃ a, ordered[i]? = some a ∧ a.Takes path content := by
  refine ⟨fun left right hleft hright hnoleft hnoright => ?_, ?_⟩
  · have hl := validateRules_ok hleft
    have hr := validateRules_ok hright
    rw [validateActiveConflicts_two]
    exact ⟨bothMatch_of_rulesOverlap hl hr hnoleft hnoright, rulesOverlap_of_bothMatch hl hr⟩
  · intro Digest Language Package _ setup entries installations hinit ordered hperm path content
    have hexclusive : (ordered.map Installation.shown).Pairwise Exclusive :=
      ((hperm.map _).pairwise_iff (fun h => h.symm)).mpr (init_exclusive hinit)
    exact ⟨fun i j a b hi hj ha hb => takes_unique hexclusive hi hj ha hb,
      fun i => select_iff hexclusive⟩

theorem validateActiveConflicts_fixture :
    BothMatch { compoundSuffixes := [ascii ".tar.gz"] } { extensions := [ascii ".gz"] } ∧
    ∃ installations, (Registry.init fixture [fixtureEntry fixtureDigest]).2 = .ok installations ∧
      select installations (ascii "src/a.fixture") [] = some 0 := by
  have h := validateActiveConflicts_exact
  constructor
  · refine (h.1 { compoundSuffixes := [ascii ".tar.gz"] } { extensions := [ascii ".gz"] }
      (by rfl) (by rfl) ⟨by simp, by decide +kernel, by simp⟩ ⟨by simp, by simp, by decide +kernel⟩).mp
      ?_
    exact validateActiveConflicts_two.mpr (by decide +kernel)
  · have hshown : (init fixture [fixtureEntry fixtureDigest]).2.toOption.map
        (fun installations => installations.map Installation.shown) =
        some [(true, { extensions := [ascii ".fixture"] })] := by decide +kernel
    cases hinit : (init fixture [fixtureEntry fixtureDigest]).2 with
    | error e => simp [hinit, Except.toOption] at hshown
    | ok installations =>
      refine ⟨installations, rfl, ?_⟩
      simp only [hinit, Except.toOption, Option.map_some, Option.some.injEq] at hshown
      obtain ⟨a, rest, rfl, ha, _⟩ := map_eq_cons_iff.mp hshown
      refine ((h.2 fixture _ _ hinit (a :: rest) (List.Perm.refl _) _ []).2 0).mpr ⟨a, rfl, ?_⟩
      rw [Installation.Takes, ha]
      decide +kernel

end Bbr.Highlight

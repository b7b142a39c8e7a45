import Bbr.Git.Remote
import Mathlib.Data.List.Basic
import Mathlib.Data.List.Induction

/-!
# When a remote is the one that Git uses

`normalize` expands a URL as Git does. `parse` takes the host from the base of the rule alone and the
workspace and the repository from the URL as it was written.
-/
namespace Bbr.Git

open List Option

open Bbr.Diff (ascii)

variable {s : Bytes} {byte : UInt8}

theorem indexOfScalar_none : indexOfScalar s byte = none ↔ byte ∉ s := by
  simp [indexOfScalar, findIdx?_eq_none_iff]
  exact ⟨fun h hmem => h byte hmem rfl, fun h x hx heq => h (heq ▸ hx)⟩

theorem indexOfScalar_some {i : Nat} : indexOfScalar s byte = some i ↔
    ∃ before after, s = before ++ byte :: after ∧ byte ∉ before ∧ before.length = i := by
  induction s generalizing i with
  | nil => simp [indexOfScalar]
  | cons first s ih =>
    rw [indexOfScalar, findIdx?_cons]
    by_cases hfirst : first = byte
    · simp only [hfirst, decide_true, if_true, some.injEq]
      constructor
      · rintro rfl
        exact ⟨[], s, rfl, not_mem_nil, rfl⟩
      rintro ⟨before, after, hs, hnot, hlength⟩
      cases before with
      | nil => exact hlength
      | cons b before =>
        obtain ⟨rfl, -⟩ := cons.inj hs
        exact absurd mem_cons_self hnot
    · simp only [hfirst, decide_false, Bool.false_eq_true, if_false, map_eq_some_iff]
      constructor
      · rintro ⟨j, hj, rfl⟩
        obtain ⟨before, after, rfl, hnot, hlength⟩ := ih.mp hj
        exact ⟨first :: before, after, rfl, by simp [hnot, Ne.symm hfirst], by simp [hlength]⟩
      · rintro ⟨before, after, hs, hnot, hlength⟩
        cases before with
        | nil => exact absurd (cons.inj hs).1 hfirst
        | cons b before =>
          obtain ⟨rfl, rfl⟩ := cons.inj hs
          refine ⟨before.length, ih.mpr ⟨before, after, rfl, ?_, rfl⟩, hlength⟩
          exact fun hmem => hnot (mem_cons_of_mem _ hmem)

theorem lastIndexOfScalar_none : lastIndexOfScalar s byte = none ↔ byte ∉ s := by
  rw [lastIndexOfScalar, map_eq_none_iff, indexOfScalar_none, mem_reverse]

theorem lastIndexOfScalar_append {before after : Bytes} (h : byte ∉ after) :
    lastIndexOfScalar (before ++ byte :: after) byte = some before.length := by
  have hfound : indexOfScalar (before ++ byte :: after).reverse byte = some after.length :=
    indexOfScalar_some.mpr ⟨after.reverse, before.reverse, by simp, by simpa using h, by simp⟩
  rw [lastIndexOfScalar, hfound, map_some, length_append, length_cons]
  congr 1
  omega

theorem exists_last (h : byte ∈ s) : ∃ before after, s = before ++ byte :: after ∧ byte ∉ after := by
  cases hfound : lastIndexOfScalar s byte with
  | none => exact absurd h (lastIndexOfScalar_none.mp hfound)
  | some i =>
    obtain ⟨j, hj, -⟩ := map_eq_some_iff.mp hfound
    obtain ⟨after, before, hs, hnot, -⟩ := indexOfScalar_some.mp hj
    refine ⟨before.reverse, after.reverse, ?_, by simpa using hnot⟩
    rw [← reverse_reverse s, hs]
    simp

def isSeparator (byte : UInt8) : Prop := byte = slash ∨ byte = colon

/-- Nothing, or up to a separator. -/
def Closed (s : Bytes) : Prop := ∀ byte ∈ s.getLast?, isSeparator byte

/-- The URL without its query ends in a workspace and a repository. -/
structure Ends (url : Bytes) (remote : Remote) : Prop where
  workspace : remote.workspace ≠ [] ∧ ∀ byte ∈ remote.workspace, ¬isSeparator byte
  repoSlug : remote.repoSlug ≠ [] ∧ slash ∉ remote.repoSlug
  tail : ∃ before, Closed before ∧
    trimTail url = before ++ remote.workspace ++ slash :: remote.repoSlug

theorem Closed.unique {a b u v : Bytes} (ha : Closed a) (hb : Closed b)
    (hu : ∀ byte ∈ u, ¬isSeparator byte) (hv : ∀ byte ∈ v, ¬isSeparator byte)
    (h : a ++ u = b ++ v) : a = b ∧ u = v := by
  have hnil : ∀ {a c u : Bytes}, Closed (a ++ c) → (∀ byte ∈ c ++ u, ¬isSeparator byte) → c = [] := by
    intro a c u hclosed hnot
    by_contra hne
    have hlast := getLast?_eq_some_getLast hne
    refine hnot (c.getLast hne) (mem_append_left _ (getLast_mem hne)) (hclosed _ ?_)
    rw [getLast?_append, hlast]
    rfl
  rcases append_eq_append_iff.mp h with ⟨c, rfl, rfl⟩ | ⟨c, rfl, rfl⟩
  · obtain rfl := hnil hb hu
    simp
  · obtain rfl := hnil ha hv
    simp

theorem lastIndexOfScalar_right {s t : Bytes} (h : byte ∉ t) :
    lastIndexOfScalar (s ++ t) byte = lastIndexOfScalar s byte := by
  by_cases hmem : byte ∈ s
  · obtain ⟨before, after, rfl, hnot⟩ := exists_last hmem
    have hrest : byte ∉ after ++ t := fun hin => (mem_append.mp hin).elim hnot h
    rw [lastIndexOfScalar_append hnot, append_assoc, cons_append, lastIndexOfScalar_append hrest]
  · have hnone : byte ∉ s ++ t := fun hin => (mem_append.mp hin).elim hmem h
    rw [lastIndexOfScalar_none.mpr hmem, lastIndexOfScalar_none.mpr hnone]

theorem lastIndexOfScalar_lt {byte : UInt8} {i : Nat}
    (h : lastIndexOfScalar s byte = some i) : i < s.length := by
  by_cases hmem : byte ∈ s
  · obtain ⟨before, after, rfl, hnot⟩ := exists_last hmem
    rw [lastIndexOfScalar_append hnot] at h
    obtain rfl := some.inj h
    simp
  · rw [lastIndexOfScalar_none.mpr hmem] at h
    cases h

theorem exists_closed (s : Bytes) : ∃ before rest, s = before ++ rest ∧ Closed before ∧
    ∀ byte ∈ rest, ¬isSeparator byte := by
  induction s using reverseRecOn with
  | nil => exact ⟨[], [], rfl, fun _ h => (by cases h), fun _ h => (by cases h)⟩
  | append_singleton s last ih =>
    by_cases hlast : isSeparator last
    · refine ⟨s ++ [last], [], (append_nil _).symm, fun byte hbyte => ?_, fun _ h => (by cases h)⟩
      rw [getLast?_append, getLast?_singleton, some_or, mem_some_iff] at hbyte
      exact hbyte ▸ hlast
    · obtain ⟨before, rest, rfl, hclosed, hrest⟩ := ih
      refine ⟨before, rest ++ [last], append_assoc _ _ _, hclosed, fun byte hbyte => ?_⟩
      cases mem_append.mp hbyte with
      | inl hin => exact hrest byte hin
      | inr hin => rw [mem_singleton.mp hin]; exact hlast

theorem workspaceStart_append {before rest : Bytes} (hclosed : Closed before)
    (hrest : ∀ byte ∈ rest, ¬isSeparator byte) : workspaceStart (before ++ rest) = before.length := by
  have hslash : slash ∉ rest := fun h => hrest slash h (.inl rfl)
  have hcolon : colon ∉ rest := fun h => hrest colon h (.inr rfl)
  rw [workspaceStart, lastIndexOfScalar_right hslash, lastIndexOfScalar_right hcolon]
  induction before using reverseRecOn with
  | nil => rfl
  | append_singleton before last _ =>
    have hlast : isSeparator last := hclosed last (by
      rw [getLast?_append, getLast?_singleton, some_or, mem_some_iff])
    have hlt := @lastIndexOfScalar_lt before
    rw [length_append, length_singleton]
    cases hlast with
    | inl heq =>
      subst heq
      have hother : colon ∉ [slash] := by decide
      rw [lastIndexOfScalar_append not_mem_nil, lastIndexOfScalar_right hother]
      cases hfound : lastIndexOfScalar before colon with
      | none => rfl
      | some i =>
        have := hlt hfound
        dsimp only
        omega
    | inr heq =>
      subst heq
      have hother : slash ∉ [colon] := by decide
      rw [lastIndexOfScalar_append not_mem_nil, lastIndexOfScalar_right hother]
      cases hfound : lastIndexOfScalar before slash with
      | none => rfl
      | some i =>
        have := hlt hfound
        dsimp only
        omega

variable {url : Bytes}

theorem extractTail_ok {remote : Remote} : extractTail url = .ok remote ↔ Ends url remote := by
  rw [extractTail]
  generalize hurl : trimTail url = s
  cases hfound : lastIndexOfScalar s slash with
  | none =>
    refine iff_of_false (fun h => by cases h) (fun h => ?_)
    obtain ⟨before, -, htail⟩ := h.tail
    rw [hurl] at htail
    refine lastIndexOfScalar_none.mp hfound ?_
    rw [htail]
    simp
  | some i =>
    have hmem : slash ∈ s := by
      by_contra hnot
      rw [lastIndexOfScalar_none.mpr hnot] at hfound
      cases hfound
    obtain ⟨path, slug, rfl, hslug⟩ := exists_last hmem
    obtain rfl := some.inj ((lastIndexOfScalar_append hslug).symm.trans hfound)
    obtain ⟨before, workspace, rfl, hclosed, hworkspace⟩ := exists_closed path
    simp only
    rw [take_left, workspaceStart_append hclosed hworkspace, drop_left,
      show (before ++ workspace ++ slash :: slug).drop ((before ++ workspace).length + 1) = slug by
        rw [← drop_drop, drop_left]; rfl]
    have hunique : ∀ remote, Ends url remote →
        remote.workspace = workspace ∧ remote.repoSlug = slug := by
      intro remote h
      obtain ⟨other, hother, htail⟩ := h.tail
      rw [hurl] at htail
      have hlength := congrArg (lastIndexOfScalar · slash) htail
      rw [lastIndexOfScalar_append hslug, lastIndexOfScalar_append h.repoSlug.2] at hlength
      have happend := append_inj htail (some.inj hlength)
      have hpath := hclosed.unique hother hworkspace h.workspace.2 happend.1
      exact ⟨hpath.2.symm, (cons.inj happend.2).2.symm⟩
    by_cases hempty : slug = []
    · rw [if_pos hempty]
      refine iff_of_false (fun h => by cases h) (fun h => h.repoSlug.1 ?_)
      rw [(hunique remote h).2, hempty]
    rw [if_neg hempty]
    by_cases hnone : workspace = []
    · rw [if_pos hnone]
      refine iff_of_false (fun h => by cases h) (fun h => h.workspace.1 ?_)
      rw [(hunique remote h).1, hnone]
    rw [if_neg hnone]
    constructor
    · intro h
      obtain rfl := Except.ok.inj h
      exact ⟨⟨hnone, hworkspace⟩, ⟨hempty, hslug⟩, before, hclosed, hurl⟩
    · intro h
      obtain ⟨hw, hs⟩ := hunique remote h
      rw [← hw, ← hs]

theorem extractTail_ne : extractTail url ≠ .error .notBitbucket := by
  intro h
  rw [extractTail] at h
  dsimp only at h
  split at h
  · cases h
  · split at h
    · cases h
    · split at h <;> cases h

theorem extractTail_error (h : ∀ remote, ¬Ends url remote) :
    extractTail url = .error .malformedUrl := by
  cases hresult : extractTail url with
  | ok remote => exact absurd (extractTail_ok.mp hresult) (h remote)
  | error e =>
    cases e with
    | malformedUrl => rfl
    | notBitbucket => exact absurd hresult extractTail_ne

theorem extractTail_eq {a b : Bytes} :
    extractTail a = extractTail b ↔ ∀ remote, Ends a remote ↔ Ends b remote := by
  constructor
  · intro h remote
    rw [← extractTail_ok, ← extractTail_ok, h]
  intro h
  cases hresult : extractTail a with
  | ok remote => exact (extractTail_ok.mpr ((h remote).mp (extractTail_ok.mp hresult))).symm
  | error e =>
    have hnone : ∀ remote, ¬Ends a remote := by
      intro remote hends
      rw [extractTail_ok.mpr hends] at hresult
      cases hresult
    rw [extractTail_error (fun remote hends => hnone remote ((h remote).mpr hends)), ← hresult,
      extractTail_error hnone]

/-- The first rule with the longest alias rewrites the URL; `source` is its base. -/
inductive Expands (rewrites : List Rewrite) (url : Bytes) : Bytes → Bytes → Prop
  | own (h : ∀ r ∈ rewrites, ¬r.alias <+: url) : Expands rewrites url url url
  | rule (before after : List Rewrite) (r : Rewrite) (rest : Bytes)
      (hsplit : rewrites = before ++ r :: after) (hurl : url = r.alias ++ rest)
      (hbefore : ∀ other ∈ before, other.alias <+: url → other.alias.length < r.alias.length)
      (hafter : ∀ other ∈ after, other.alias <+: url → other.alias.length ≤ r.alias.length) :
      Expands rewrites url r.base (r.base ++ rest)

section Rules

variable {url : Bytes}

theorem bestRewrite_concat (url : Bytes) (rewrites : List Rewrite) (last : Rewrite) :
    bestRewrite url (rewrites ++ [last]) =
      if !last.alias.isPrefixOf url then bestRewrite url rewrites
      else match bestRewrite url rewrites with
        | none => some last
        | some other =>
          if other.alias.length < last.alias.length then some last
          else bestRewrite url rewrites := by
  rw [bestRewrite, foldl_concat]
  rfl

theorem bestRewrite_run (url : Bytes) (rewrites : List Rewrite) :
    (∀ r ∈ rewrites, ¬r.alias <+: url) ∧ bestRewrite url rewrites = none ∨
      ∃ before after r, rewrites = before ++ r :: after ∧ r.alias <+: url ∧
        (∀ other ∈ before, other.alias <+: url → other.alias.length < r.alias.length) ∧
        (∀ other ∈ after, other.alias <+: url → other.alias.length ≤ r.alias.length) ∧
        bestRewrite url rewrites = some r := by
  induction rewrites using reverseRecOn with
  | nil => exact .inl ⟨fun _ h => (by cases h), rfl⟩
  | append_singleton rewrites last ih =>
    rw [bestRewrite_concat]
    by_cases hlast : last.alias <+: url
    · rw [List.isPrefixOf_iff_prefix.mpr hlast]
      right
      rcases ih with ⟨hnone, hbest⟩ | ⟨before, after, r, rfl, hr, hbefore, hafter, hbest⟩
      · rw [hbest]
        exact ⟨rewrites, [], last, rfl, hlast, fun other hother h => absurd h (hnone other hother),
          fun _ h => (by cases h), rfl⟩
      rw [hbest]
      by_cases hlonger : r.alias.length < last.alias.length
      · refine ⟨before ++ r :: after, [], last, rfl, hlast, fun other hother h => ?_,
          fun _ h => (by cases h), by simp [hlonger]⟩
        cases mem_append.mp hother with
        | inl hin => exact Nat.lt_trans (hbefore other hin h) hlonger
        | inr hin =>
          cases mem_cons.mp hin with
          | inl heq => rwa [heq]
          | inr hin => exact Nat.lt_of_le_of_lt (hafter other hin h) hlonger
      · refine ⟨before, after ++ [last], r, by simp, hr, hbefore, fun other hother h => ?_,
          by simp [hlonger]⟩
        cases mem_append.mp hother with
        | inl hin => exact hafter other hin h
        | inr hin => rw [mem_singleton.mp hin]; omega
    · have hfalse : last.alias.isPrefixOf url = false := by
        rwa [← Bool.not_eq_true, isPrefixOf_iff_prefix]
      rw [hfalse]
      rcases ih with ⟨hnone, hbest⟩ | ⟨before, after, r, rfl, hr, hbefore, hafter, hbest⟩
      · refine .inl ⟨fun r hmem => ?_, hbest⟩
        cases mem_append.mp hmem with
        | inl hin => exact hnone r hin
        | inr hin => rwa [mem_singleton.mp hin]
      · refine .inr ⟨before, after ++ [last], r, by simp, hr, hbefore, fun other hother h => ?_, hbest⟩
        cases mem_append.mp hother with
        | inl hin => exact hafter other hin h
        | inr hin => exact absurd (mem_singleton.mp hin ▸ h) hlast

variable {rewrites : List Rewrite}

theorem bestRewrite_none (h : ∀ r ∈ rewrites, ¬r.alias <+: url) : bestRewrite url rewrites = none := by
  rcases bestRewrite_run url rewrites with ⟨-, hbest⟩ | ⟨before, after, r, rfl, hr, -⟩
  · exact hbest
  · exact absurd hr (h r (by simp))

theorem bestRewrite_some {before after : List Rewrite} {r : Rewrite} (hr : r.alias <+: url)
    (hbefore : ∀ other ∈ before, other.alias <+: url → other.alias.length < r.alias.length)
    (hafter : ∀ other ∈ after, other.alias <+: url → other.alias.length ≤ r.alias.length) :
    bestRewrite url (before ++ r :: after) = some r := by
  induction after using reverseRecOn with
  | nil =>
    rw [bestRewrite_concat, isPrefixOf_iff_prefix.mpr hr]
    rcases bestRewrite_run url before with ⟨-, hbest⟩ | ⟨front, back, other, rfl, hother, -, -, hbest⟩
    · rw [hbest]
      rfl
    · rw [hbest]
      have := hbefore other (by simp) hother
      simp [this]
  | append_singleton after last ih =>
    have hbest := ih (fun other hother => hafter other (mem_append_left _ hother))
    rw [← cons_append, ← append_assoc, bestRewrite_concat, hbest]
    by_cases hlast : last.alias <+: url
    · have := hafter last (by simp) hlast
      simp [Nat.not_lt.mpr this]
    have hfalse : last.alias.isPrefixOf url = false := by
      rwa [← Bool.not_eq_true, isPrefixOf_iff_prefix]
    rw [hfalse]
    rfl

theorem hostSource_eq (h : ∀ r ∈ rewrites, r.alias ≠ []) : hostSource url rewrites =
      (bestRewrite url rewrites).elim (0, url) (fun r => (r.alias.length, r.base)) := by
  induction rewrites using reverseRecOn with
  | nil => rfl
  | append_singleton rewrites last ih =>
    have hsource := ih (fun r hr => h r (mem_append_left _ hr))
    have hpos := length_pos_iff.mpr (h last (by simp))
    have hstep : hostSource url (rewrites ++ [last]) =
        if (hostSource url rewrites).1 < last.alias.length ∧ last.alias.isPrefixOf url then
          (last.alias.length, last.base) else hostSource url rewrites := by
      rw [hostSource, foldl_concat]
      rfl
    rw [hstep, bestRewrite_concat, hsource]
    cases hprefix : last.alias.isPrefixOf url with
    | false => simp
    | true =>
      cases hbest : bestRewrite url rewrites with
      | none => simp [hpos]
      | some other =>
        by_cases hlonger : other.alias.length < last.alias.length
        · simp [hlonger]
        · simp [hlonger]

end Rules

/-- The base names Bitbucket when the whole URL does, and then the URL ends as the expanded one. -/
structure Agrees (url source expanded : Bytes) : Prop where
  host : hostIsBitbucket source = hostIsBitbucket expanded
  tail : hostIsBitbucket source = true → ∀ remote, Ends url remote ↔ Ends expanded remote

theorem parse_expanded (expanded : Bytes) : parse expanded [] =
    if !hostIsBitbucket expanded then .error .notBitbucket else extractTail expanded := rfl

variable {rewrites : List Rewrite}

theorem parse_source {url source expanded : Bytes} (hne : ∀ r ∈ rewrites, r.alias ≠ [])
    (h : Expands rewrites url source expanded) :
    parse url rewrites =
      if !hostIsBitbucket source then .error .notBitbucket else extractTail url := by
  rw [parse, hostSource_eq hne]
  cases h with
  | own hnone => rw [bestRewrite_none hnone]; rfl
  | rule before after r rest hsplit hurl hbefore hafter =>
    rw [hsplit, bestRewrite_some ⟨rest, hurl.symm⟩ hbefore hafter]
    rfl

theorem normalize_expanded {url source expanded : Bytes} (h : Expands rewrites url source expanded) :
    normalize url rewrites = normalize expanded [] := by
  rw [normalize]
  cases h with
  | own hnone => rw [bestRewrite_none hnone]; rfl
  | rule before after r rest hsplit hurl hbefore hafter =>
    rw [hsplit, bestRewrite_some ⟨rest, hurl.symm⟩ hbefore hafter, hurl]
    dsimp only
    rw [drop_left]
    rfl

/-- `normalize` always agrees with the rewriting of Git, `parse` under a condition. -/
theorem parse_agrees_iff (url : Bytes) (rewrites : List Rewrite) (source expanded : Bytes)
    (hne : ∀ r ∈ rewrites, r.alias ≠ []) (h : Expands rewrites url source expanded) :
    normalize url rewrites = normalize expanded [] ∧
      (parse url rewrites = parse expanded [] ↔ Agrees url source expanded) := by
  refine ⟨normalize_expanded h, ?_⟩
  rw [parse_source hne h, parse_expanded]
  cases hsource : hostIsBitbucket source with
  | false =>
    cases hexpanded : hostIsBitbucket expanded with
    | false =>
      refine iff_of_true rfl ⟨by rw [hsource, hexpanded], fun habsurd => ?_⟩
      rw [hsource] at habsurd
      cases habsurd
    | true =>
      refine iff_of_false (fun heq => extractTail_ne heq.symm) (fun hagrees => ?_)
      have := hagrees.host
      rw [hsource, hexpanded] at this
      cases this
  | true =>
    cases hexpanded : hostIsBitbucket expanded with
    | false =>
      refine iff_of_false (fun heq => extractTail_ne heq) (fun hagrees => ?_)
      have := hagrees.host
      rw [hsource, hexpanded] at this
      cases this
    | true =>
      refine extractTail_eq.trans ⟨fun htail => ⟨by rw [hsource, hexpanded], fun _ => htail⟩, ?_⟩
      exact fun hagrees => hagrees.tail hsource

/-- A rule for `bb:ws/`, where both URLs end alike. -/
theorem alias_agrees :
    normalize (ascii "bb:ws/repo.git") [⟨ascii "bb:", ascii "git@bitbucket.org:"⟩] =
        normalize (ascii "git@bitbucket.org:ws/repo.git") [] ∧
      (parse (ascii "bb:ws/repo.git") [⟨ascii "bb:", ascii "git@bitbucket.org:"⟩] =
          parse (ascii "git@bitbucket.org:ws/repo.git") [] ↔
        Agrees (ascii "bb:ws/repo.git") (ascii "git@bitbucket.org:")
          (ascii "git@bitbucket.org:ws/repo.git")) :=
  parse_agrees_iff (ascii "bb:ws/repo.git") [⟨ascii "bb:", ascii "git@bitbucket.org:"⟩]
    (ascii "git@bitbucket.org:") (ascii "git@bitbucket.org:ws/repo.git") (by decide)
    (.rule [] [] ⟨ascii "bb:", ascii "git@bitbucket.org:"⟩ (ascii "ws/repo.git") rfl rfl
      (fun _ h => (by cases h)) (fun _ h => (by cases h)))

/-- The base brings the workspace, and `parse` takes the one of the alias. -/
theorem base_with_workspace : ¬∀ (url : Bytes) (rewrites : List Rewrite) (source expanded : Bytes),
    (∀ r ∈ rewrites, r.alias ≠ []) → Expands rewrites url source expanded →
      parse url rewrites = parse expanded [] ∧ normalize url rewrites = normalize expanded [] := by
  intro h
  have hparse := (h (ascii "bb:c24/pr-webapp.git")
    [⟨ascii "bb:c24/", ascii "git@bitbucket.org:check24/"⟩] _ _ (by decide)
    (.rule [] [] ⟨ascii "bb:c24/", ascii "git@bitbucket.org:check24/"⟩ (ascii "pr-webapp.git") rfl rfl
      (fun _ h => (by cases h)) (fun _ h => (by cases h)))).1
  have hworkspace := congrArg Remote.workspace (Except.ok.inj hparse)
  exact absurd hworkspace (by decide)

/-- The base brings no host, and `parse` takes the expanded URL for another one. -/
theorem base_without_host : ∃ source,
    Expands [⟨ascii "git://", ascii "https://"⟩] (ascii "git://bitbucket.org/ws/repo") source
      (ascii "https://bitbucket.org/ws/repo") ∧
    parse (ascii "git://bitbucket.org/ws/repo") [⟨ascii "git://", ascii "https://"⟩] =
      .error .notBitbucket ∧
    parse (ascii "https://bitbucket.org/ws/repo") [] = .ok ⟨ascii "ws", ascii "repo"⟩ :=
  ⟨_, .rule [] [] ⟨ascii "git://", ascii "https://"⟩ (ascii "bitbucket.org/ws/repo") rfl rfl
    (fun _ h => (by cases h)) (fun _ h => (by cases h)), by decide, by decide⟩

end Bbr.Git

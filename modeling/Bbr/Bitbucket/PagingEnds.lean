import Bbr.Bitbucket.PagingServers

/-!
# What concurrent paging returns

At the end of a run every launched page is settled, so the merged result is read off the pages in
order. It is what fetching the pages one after the other returns, save that without a limit the
failure of a later List may be reported.
-/
namespace Bbr.Bitbucket

open Bbr.Lib List Option Except PagedLists

variable {Item Value : Type} {options : PagedListOptions} {decode : Value → Except PageError Item}
  {fetch : Bytes → Except PageError (NumberedPage Value)}

/-- The items, cut to the limit. -/
def cut (limit : Option Nat) (items : List Item) : List Item :=
  match limit with
  | none => items
  | some limit => items.take limit

/-- Page after page until the limit, behind the items so far; the first failing page fails. -/
def sequential (options : PagedListOptions) :
    List (Except PageError (List Item)) → List Item → Except PageError (List Item)
  | [], out => .ok out
  | .error reason :: _, _ => .error reason
  | .ok items :: pages, out =>
    if atLimit options (out ++ items).length then .ok (cut options.limit (out ++ items))
    else sequential options pages (out ++ items)

theorem atLimit_mono {a b : Nat} (hab : a ≤ b) (h : atLimit options b = false) :
    atLimit options a = false := by
  unfold atLimit at h ⊢
  split
  · rfl
  rename_i limit hlimit
  rw [hlimit] at h
  rw [decide_eq_false_iff_not] at h ⊢
  omega

theorem atLimit_zero (hlimit : options.limit ≠ some 0) : atLimit options 0 = false := by
  unfold atLimit
  cases hcase : options.limit with
  | none => rfl
  | some limit =>
    rw [hcase] at hlimit
    exact decide_eq_false (fun hle => hlimit (congrArg some (Nat.le_zero.mp hle)))

variable {out : List Item} {oks : List (List Item)}

theorem sequential_ok (h : atLimit options (out ++ oks.flatten).length = false)
    (more : List (Except PageError (List Item))) :
    sequential options (oks.map .ok ++ more) out = sequential options more (out ++ oks.flatten) := by
  induction oks generalizing out with
  | nil => rw [flatten_nil, append_nil, map_nil, nil_append]
  | cons items oks ih =>
    rw [flatten_cons, ← append_assoc] at h ⊢
    have hbelow : atLimit options (out ++ items).length = false := by
      have hlength : (out ++ items ++ oks.flatten).length = (out ++ items).length + oks.flatten.length :=
        length_append
      exact atLimit_mono (hlength ▸ Nat.le_add_right _ _) h
    rw [map_cons, cons_append, sequential, if_neg (by rw [hbelow]; decide), ih h]

/-- How the pages of a List end the prefix, behind the items so far. -/
inductive Scanned (options : PagedListOptions) (last : Option Nat) (number : Nat) (out : List Item) :
    List (Except PageError (List Item)) → PrefixEnd → Prop
  | through (oks : List (List Item)) : last ≠ none →
    atLimit options (out ++ oks.flatten).length = false →
      Scanned options last number out (oks.map .ok) (.through (out ++ oks.flatten).length)
  | unlaunched (oks : List (List Item)) : last = none →
    atLimit options (out ++ oks.flatten).length = false →
      Scanned options last number out (oks.map .ok)
        (.missing (out ++ oks.flatten).length (number + oks.length))
  | failed (oks : List (List Item)) (reason : PageError)
      (tail : List (Except PageError (List Item))) :
    atLimit options (out ++ oks.flatten).length = false →
      Scanned options last number out (oks.map .ok ++ .error reason :: tail)
        (.missing (out ++ oks.flatten).length (number + oks.length))
  | full (oks : List (List Item)) (items : List Item)
      (tail : List (Except PageError (List Item))) :
    atLimit options (out ++ oks.flatten).length = false →
      atLimit options (out ++ oks.flatten ++ items).length = true →
        Scanned options last number out (oks.map .ok ++ .ok items :: tail)
          (.full (out ++ oks.flatten ++ items).length)

variable {front : List (Except PageError (List Item))} {last : Option Nat}

theorem Scanned.cons {number : Nat} {out items : List Item}
    {stop : PrefixEnd} (h : Scanned options last (number + 1) (out ++ items) front stop) :
    Scanned options last number out (.ok items :: front) stop := by
  have hflat : ∀ oks : List (List Item), out ++ items ++ oks.flatten = out ++ (items :: oks).flatten :=
    fun oks => by rw [flatten_cons, append_assoc]
  have hnumber : ∀ oks : List (List Item), number + 1 + oks.length = number + (items :: oks).length :=
    fun oks => by rw [length_cons]; omega
  cases h with
  | through oks hlast hbelow =>
    rw [hflat] at hbelow ⊢
    exact .through (items :: oks) hlast hbelow
  | unlaunched oks hlast hbelow =>
    rw [hflat] at hbelow ⊢
    rw [hnumber]
    exact .unlaunched (items :: oks) hlast hbelow
  | failed oks reason tail hbelow =>
    rw [hflat] at hbelow ⊢
    rw [hnumber]
    exact .failed (items :: oks) reason tail hbelow
  | full oks found tail hbelow hfull =>
    rw [hflat] at hbelow hfull ⊢
    exact .full (items :: oks) found tail hbelow hfull

/-- Settled pages from `number` on, up to the last one if it is known. -/
theorem prefixList_scanned {number : Nat} (hlast : ∀ n, last = some n → n + 1 = number + front.length)
    (hbelow : atLimit options out.length = false) :
    Scanned options last number out front
      (prefixList options last (front.map settled) number out.length) := by
  have hout : ∀ out : List Item, out ++ ([] : List (List Item)).flatten = out := append_nil
  induction front generalizing number out with
  | nil =>
    unfold prefixList
    cases hcase : last with
    | none =>
      have hscan : Scanned options none number out [] (.missing (out ++ [].flatten).length number) :=
        .unlaunched [] rfl (by rw [hout]; exact hbelow)
      rw [hout] at hscan
      exact hscan
    | some n =>
      have hn := hlast n hcase
      have hpast : pastLast (some n) number = true := by
        rw [length_nil] at hn
        exact decide_eq_true (by omega)
      have hscan : Scanned options (some n) number out [] (.through (out ++ [].flatten).length) :=
        .through [] (fun h => by cases h) (by rw [hout]; exact hbelow)
      rw [hout] at hscan
      rw [if_pos hpast]
      exact hscan
  | cons reply front ih =>
    have hpast : pastLast last number = false := by
      cases hcase : last with
      | none => rfl
      | some n =>
        have hn := hlast n hcase
        rw [length_cons] at hn
        exact decide_eq_false (by omega)
    unfold prefixList
    rw [if_neg (by rw [hpast]; decide)]
    cases reply with
    | error reason =>
      have hscan : Scanned options last number out (.error reason :: front)
          (.missing (out ++ [].flatten).length number) :=
        .failed [] reason front (by rw [hout]; exact hbelow)
      rw [hout] at hscan
      exact hscan
    | ok items =>
      have hlength : out.length + items.length = (out ++ items).length := length_append.symm
      rw [map_cons, show settled (.ok items) = PageState.done items from rfl]
      dsimp only
      rw [hlength]
      split
      · rename_i hfull
        have hscan : Scanned options last number out (.ok items :: front)
            (.full (out ++ [].flatten ++ items).length) :=
          .full [] items front (by rw [hout]; exact hbelow) (by rw [hout]; exact hfull)
        rw [hout] at hscan
        exact hscan
      · rename_i hmore
        refine Scanned.cons (ih (fun n hn => ?_) (Bool.eq_false_iff.mpr hmore))
        have hn := hlast n hn
        rw [length_cons] at hn
        omega

/-! ### The Lists at the end of a run -/

/-- A List of finitely many pages, with what its server keeps to. -/
structure FiniteServer (options : PagedListOptions)
    (fetch : Bytes → Except PageError (NumberedPage Value)) where
  first : Bytes
  pagelen : Nat
  raw : List (Except PageError (NumberedPage Value))
  served : Served options fetch first pagelen raw

/-- The items of each page, or what fails it. -/
def FiniteServer.pages (server : FiniteServer options fetch) (decode : Value → Except PageError Item) :
    List (Except PageError (List Item)) :=
  server.raw.map (contents decode)

/-- A List without pending pages. -/
structure EndedList (decode : Value → Except PageError Item) (server : FiniteServer options fetch)
    (list : PagedList Item) : Prop where
  kept : ServedList options decode fetch server.first server.pagelen server.raw list
  none_pending : ∀ k : Nat, list.pages[k]? ≠ some .pending

variable {server : FiniteServer options fetch} {list : PagedList Item}

theorem EndedList.pages_eq (h : EndedList decode server list) :
    list.pages = ((server.pages decode).take list.pages.length).map settled := by
  refine ext_getElem? (fun k => ?_)
  rw [getElem?_map]
  obtain hlt | hge := Nat.lt_or_ge k list.pages.length
  · rw [getElem?_take_of_lt hlt, FiniteServer.pages, getElem?_map]
    have hk : list.pages[k]? = some list.pages[k] := getElem?_eq_getElem hlt
    obtain hpending | ⟨reply, hraw, hsettled⟩ := h.kept.pages k _ hk
    · rw [hpending] at hk
      exact absurd hk (h.none_pending k)
    · rw [hk, hraw, hsettled]
      rfl
  · have htake : ((server.pages decode).take list.pages.length)[k]? = none := by
      rw [getElem?_eq_none]
      rw [length_take]
      omega
    rw [getElem?_eq_none hge, htake]
    rfl

theorem EndedList.length_le (h : EndedList decode server list) :
    list.pages.length ≤ (server.pages decode).length := by
  rw [FiniteServer.pages, length_map]
  exact Nat.le_trans h.kept.launched h.kept.known_le

theorem EndedList.last_eq (h : EndedList decode server list) {n : Nat} (hlast : list.last = some n) :
    n = list.pages.length ∧ list.pages.length = (server.pages decode).length := by
  have hlength := h.length_le
  rw [FiniteServer.pages, List.length_map] at hlength ⊢
  obtain hnone | hsome := h.kept.last
  · rw [hnone] at hlast
    cases hlast
  obtain ⟨items, hdone⟩ := h.kept.lastDone.mp hsome
  have hlt := (List.getElem?_eq_some_iff.mp hdone).1
  rw [hsome, some.injEq] at hlast
  omega

def shown (list : PagedList Item) : List Item := (withinLast list).flatMap doneItems

theorem EndedList.shown_eq (h : EndedList decode server list) :
    shown list = list.pages.flatMap doneItems := by
  unfold shown withinLast
  cases hlast : list.last with
  | none => rfl
  | some n =>
    rw [(h.last_eq hlast).1]
    dsimp only
    rw [take_length]

theorem doneItems_ok (oks : List (List Item)) :
    ((oks.map ok).map settled).flatMap doneItems = oks.flatten := by
  induction oks with
  | nil => rfl
  | cons items oks ih =>
    rw [map_cons, map_cons, flatMap_cons, ih, flatten_cons]
    rfl

theorem rowCount_ok (pagelen : Nat) (oks : List (List Item)) :
    rowCount pagelen ((oks.map ok).map settled) = oks.flatten.length := by
  induction oks with
  | nil => rfl
  | cons items oks ih =>
    rw [map_cons, map_cons, flatten_cons, length_append, ← ih]
    rfl

theorem failedPage_ok (last : Option Nat) (oks : List (List Item)) (number : Nat) :
    failedPage last ((oks.map ok).map settled) number = none := by
  induction oks generalizing number with
  | nil => rfl
  | cons items oks ih =>
    unfold failedPage
    rw [map_cons, map_cons]
    dsimp only
    split
    · rfl
    · exact ih (number + 1)

theorem failedPage_failed (oks : List (List Item)) (reason : PageError)
    (tail : List (Except PageError (List Item))) (number : Nat)
    (hlast : ∀ n, last = some n → number + oks.length ≤ n) :
    failedPage last ((oks.map ok ++ error reason :: tail).map settled) number =
      some (number + oks.length, reason) := by
  have hpast : ∀ number, (∀ n, last = some n → number ≤ n) → pastLast last number = false := by
    intro number h
    cases hcase : last with
    | none => rfl
    | some n => exact decide_eq_false (Nat.not_lt_of_le (h n hcase))
  induction oks generalizing number with
  | nil =>
    unfold failedPage
    rw [map_nil, nil_append, map_cons]
    dsimp only
    rw [if_neg (by rw [hpast number hlast]; decide)]
    rfl
  | cons items oks ih =>
    have hnumber : number + (items :: oks).length = number + 1 + oks.length := by
      rw [length_cons]
      omega
    rw [hnumber] at hlast ⊢
    unfold failedPage
    rw [map_cons, cons_append, map_cons]
    dsimp only
    rw [if_neg (by rw [hpast number (fun n hn => by have := hlast n hn; omega)]; decide)]
    exact ih (number + 1) hlast

variable {lists : List (PagedList Item)} {index : Nat} {failure : PagePosition × PageError}

theorem firstFailureFrom_ge (h : firstFailureFrom lists index = some failure) :
    index ≤ failure.1.list := by
  induction lists generalizing index with
  | nil => cases h
  | cons list lists ih =>
    rw [firstFailureFrom] at h
    split at h
    · cases h
      exact Nat.le_refl _
    · exact Nat.le_of_succ_le (ih h)

/-- A List that is done as far as it is launched, and not at its end, has a page to launch. -/
theorem EndedList.launchable (h : EndedList decode server list)
    (hoks : (server.pages decode).take list.pages.length = oks.map .ok) (hlast : list.last = none)
    (hbelow : atLimit options oks.flatten.length = false) : launchable options list = true := by
  have hpages : list.pages = (oks.map ok).map settled := by rw [← hoks, ← h.pages_eq]
  have hdone : ∀ k, k < list.pages.length → ∃ items, list.pages[k]? = some (.done items) := by
    intro k hk
    rw [hpages, length_map, length_map] at hk
    rw [hpages, getElem?_map, getElem?_map, getElem?_eq_getElem hk]
    exact ⟨_, rfl⟩
  have hbefore : list.pages.length < server.raw.length := by
    have hpos := server.served.length_pos
    by_contra hend
    obtain ⟨items, hitems⟩ := hdone (server.raw.length - 1) (by omega)
    rw [h.kept.lastDone.mpr ⟨items, hitems⟩] at hlast
    cases hlast
  have hknown : list.pages.length < list.known := by
    cases hlength : list.pages.length with
    | zero =>
      rw [(h.kept.fresh (.inl (getElem?_eq_none (by omega)))).1]
      exact Nat.zero_lt_one
    | succ k =>
      obtain ⟨items, hitems⟩ := hdone k (by omega)
      exact h.kept.ahead k items hitems (by omega)
  unfold Bitbucket.launchable withinLimit
  rw [hlast, hpages, rowCount_ok, hbelow, ← hpages, decide_eq_true hknown]
  rfl

/-- The pages of several Lists, in order. -/
def allPages (decode : Value → Except PageError Item) (servers : List (FiniteServer options fetch)) :
    List (Except PageError (List Item)) :=
  servers.flatMap (fun server => server.pages decode)

/-- What the merged prefix says of Lists that are settled, behind the items `out`. -/
inductive Merge (options : PagedListOptions) (lists : List (PagedList Item)) (index : Nat)
    (out : List Item) (result : Except PageError (List Item)) : Nat × Option PagePosition → Prop
  | all : result = .ok (out ++ lists.flatMap shown) →
    atLimit options (out ++ lists.flatMap shown).length = false →
      Merge options lists index out result ((out ++ lists.flatMap shown).length, none)
  | full (items : Nat) : result = .ok (cut options.limit (out ++ lists.flatMap shown)) →
    items ≤ (out ++ lists.flatMap shown).length → atLimit options items = true →
      Merge options lists index out result (items, none)
  | failed (items : Nat) (position : PagePosition) (reason : PageError) : result = .error reason →
    firstFailureFrom lists index = some (position, reason) →
      Merge options lists index out result (items, some position)
  | unlaunched (items i : Nat) (list : PagedList Item) : lists[i]? = some list →
    launchable options list = true →
      (∀ failure, firstFailureFrom lists index = some failure →
        PagePosition.before ⟨index + i, list.pages.length + 1⟩ failure.1 = true) →
          Merge options lists index out result (items, some ⟨index + i, list.pages.length + 1⟩)

theorem Merge.cons {index : Nat}
    {result : Except PageError (List Item)} {merged : Nat × Option PagePosition}
    (h : Merge options lists (index + 1) (out ++ shown list) result merged)
    (hdone : failedPage list.last list.pages 1 = none) :
    Merge options (list :: lists) index out result merged := by
  have hshown : out ++ shown list ++ lists.flatMap shown = out ++ (list :: lists).flatMap shown := by
    rw [flatMap_cons, append_assoc]
  have hfailure : firstFailureFrom (list :: lists) index = firstFailureFrom lists (index + 1) := by
    rw [firstFailureFrom, hdone]
  cases h with
  | all hresult hbelow =>
    rw [hshown] at hresult hbelow ⊢
    exact .all hresult hbelow
  | full items hresult hle hfull =>
    rw [hshown] at hresult hle
    exact .full items hresult hle hfull
  | failed items position reason hresult hfirst =>
    exact .failed items position reason hresult (hfailure.trans hfirst)
  | unlaunched items i found hfound hlaunch hbefore =>
    have hposition : index + 1 + i = index + (i + 1) := by omega
    rw [hposition] at hbefore ⊢
    exact .unlaunched items (i + 1) found hfound hlaunch (fun failure h => hbefore failure (hfailure ▸ h))

theorem cut_append {limit : Option Nat} {items more : List Item}
    (h : ∀ n, limit = some n → n ≤ items.length) (hlimit : limit ≠ none) :
    cut limit (items ++ more) = cut limit items := by
  cases limit with
  | none => exact absurd rfl hlimit
  | some n => exact take_append_of_le_length (h n rfl)

theorem atLimit_some {items : Nat} (h : atLimit options items = true) :
    options.limit ≠ none ∧ ∀ n, options.limit = some n → n ≤ items := by
  unfold atLimit at h
  cases hlimit : options.limit with
  | none =>
    rw [hlimit] at h
    cases h
  | some limit =>
    rw [hlimit] at h
    refine ⟨fun h => (by cases h), fun n hn => ?_⟩
    rw [some.injEq] at hn
    exact hn ▸ of_decide_eq_true h

variable {servers : List (FiniteServer options fetch)}

/-- The merged prefix of settled Lists, against the pages one after the other. -/
theorem prefixFrom_ended (h : List.Forall₂ (EndedList decode) servers lists) (index : Nat)
    (hbelow : atLimit options out.length = false) :
    Merge options lists index out (sequential options (allPages decode servers) out)
      (prefixFrom options lists index out.length) := by
  induction h generalizing index out with
  | nil =>
    have hout : out ++ ([] : List (PagedList Item)).flatMap shown = out := append_nil out
    have hmerge : Merge options [] index out (.ok out) ((out ++ [].flatMap shown).length, none) :=
      .all (by rw [hout]) (by rw [hout]; exact hbelow)
    rw [hout] at hmerge
    exact hmerge
  | @cons server list servers lists hlist _ ih =>
    obtain ⟨front, hfront⟩ : ∃ front, front = (server.pages decode).take list.pages.length := ⟨_, rfl⟩
    obtain ⟨back, hback⟩ : ∃ back, back = (server.pages decode).drop list.pages.length := ⟨_, rfl⟩
    have hpages : list.pages = front.map settled := by rw [hfront, ← hlist.pages_eq]
    have hlength : front.length = list.pages.length := by rw [hpages, length_map]
    have hlast : ∀ n, list.last = some n → n + 1 = 1 + front.length := by
      intro n hn
      rw [hlength, (hlist.last_eq hn).1]
      exact Nat.add_comm _ _
    have hscan := prefixList_scanned hlast hbelow
    have hsequence : sequential options (allPages decode (server :: servers)) out =
        sequential options (front ++ (back ++ allPages decode servers)) out := by
      rw [hfront, hback, ← append_assoc, take_append_drop]
      rfl
    have hshown : shown list = (front.map settled).flatMap doneItems := by rw [hlist.shown_eq, hpages]
    rw [hsequence, prefixFrom, hpages]
    generalize prefixList options list.last (front.map settled) 1 out.length = stop at hscan ⊢
    cases hscan with
    | through oks hsome hclear =>
      rw [doneItems_ok] at hshown
      obtain ⟨n, hn⟩ := ne_none_iff_exists'.mp hsome
      have hnone : back = [] := by
        rw [hback]
        exact drop_eq_nil_of_le (Nat.le_of_eq (hlist.last_eq hn).2.symm)
      rw [sequential_ok hclear, hnone, nil_append, ← hshown]
      rw [← hshown] at hclear
      refine Merge.cons (ih (index + 1) hclear) ?_
      rw [hpages, failedPage_ok]
    | unlaunched oks hnone hclear =>
      have hsmaller : atLimit options oks.flatten.length = false := by
        refine atLimit_mono ?_ hclear
        rw [length_append]
        exact Nat.le_add_left _ _
      have hlaunch := hlist.launchable hfront.symm hnone hsmaller
      have hnumber : 1 + oks.length = list.pages.length + 1 := by
        rw [← hlength, length_map]
        exact Nat.add_comm _ _
      rw [hnumber]
      refine .unlaunched _ 0 list rfl hlaunch (fun failure hfailure => ?_)
      rw [firstFailureFrom, hpages, failedPage_ok] at hfailure
      exact decide_eq_true (.inl (firstFailureFrom_ge hfailure))
    | failed oks reason tail hclear =>
      refine .failed _ _ reason ?_ ?_
      · rw [append_assoc, sequential_ok hclear]
        rfl
      rw [firstFailureFrom, hpages, failedPage_failed]
      intro n hn
      have hn := hlast n hn
      rw [length_append, length_map, length_cons] at hn
      omega
    | full oks items tail hclear hfull =>
      obtain ⟨hlimit, hreached⟩ := atLimit_some hfull
      have hitems : out ++ (list :: lists).flatMap shown = out ++ oks.flatten ++ items ++
          ((tail.map settled).flatMap doneItems ++ lists.flatMap shown) := by
        rw [flatMap_cons, hshown, map_append, flatMap_append, doneItems_ok, map_cons, flatMap_cons]
        simp only [settled, doneItems, append_assoc]
      refine .full _ ?_ ?_ hfull
      · rw [append_assoc, sequential_ok hclear, cons_append, sequential, if_pos hfull, hitems,
          cut_append hreached hlimit]
      · rw [hitems]
        exact (prefix_append _ _).length_le

/-! ### The result -/

/-- The pages one after the other; without a limit, the first failure of some List may stand for that
of an earlier one. -/
def Merged (options : PagedListOptions) (lists : List (List (Except PageError (List Item))))
    (result : Except PageError (List Item)) : Prop :=
  result = sequential options lists.flatten [] ∨
    (options.limit = none ∧ ∃ pages ∈ lists, ∃ reason,
      sequential options pages [] = .error reason ∧ result = .error reason)

theorem findPage_found {failure : Option PagePosition} {i : Nat} (hlist : lists[i]? = some list)
    (hlaunch : launchable options list = true) (hbefore : failure.all
      (fun failed => PagePosition.before ⟨index + i, list.pages.length + 1⟩ failed) = true) :
    findPage options failure (decide (list.pages.length = 0)) lists index ≠ none := by
  induction lists generalizing index i with
  | nil => cases hlist
  | cons head lists ih =>
    rw [findPage]
    split
    · exact fun h => (by cases h)
    rename_i hskip
    cases i with
    | zero =>
      cases hlist
      rw [Nat.add_zero] at hbefore
      rw [hlaunch, hbefore, beq_self_eq_true] at hskip
      exact absurd rfl hskip
    | succ i =>
      have hindex : index + (i + 1) = index + 1 + i := by omega
      rw [hindex] at hbefore
      exact ih hlist hbefore

theorem failedPage_some {number n : Nat} {reason : PageError}
    (h : failedPage last (front.map settled) number = some (n, reason)) :
    ∃ (oks : List (List Item)) (tail : List (Except PageError (List Item))),
      front = oks.map ok ++ error reason :: tail := by
  induction front generalizing number with
  | nil => cases h
  | cons reply front ih =>
    unfold failedPage at h
    rw [map_cons] at h
    dsimp only at h
    split at h
    · cases h
    cases reply with
    | error found =>
      cases h
      exact ⟨[], front, rfl⟩
    | ok items =>
      obtain ⟨oks, tail, rfl⟩ := ih h
      exact ⟨items :: oks, tail, rfl⟩

theorem atLimit_none (h : options.limit = none) (items : Nat) : atLimit options items = false := by
  unfold atLimit
  rw [h]

/-- Without a limit, the failure of a List is that of its first failing page. -/
theorem firstFailureFrom_pages (h : List.Forall₂ (EndedList decode) servers lists)
    (hlimit : options.limit = none) (hfailure : firstFailureFrom lists index = some failure) :
    ∃ server ∈ servers, sequential options (server.pages decode) [] = .error failure.2 := by
  induction h generalizing index with
  | nil => cases hfailure
  | @cons server list servers lists hlist _ ih =>
    rw [firstFailureFrom] at hfailure
    split at hfailure
    · rename_i number reason hfailed
      cases hfailure
      rw [hlist.pages_eq] at hfailed
      obtain ⟨oks, tail, hfront⟩ := failedPage_some hfailed
      refine ⟨server, mem_cons_self, ?_⟩
      rw [← take_append_drop list.pages.length (server.pages decode), hfront, append_assoc,
        sequential_ok (atLimit_none hlimit _)]
      rfl
    · obtain ⟨found, hmem, hfound⟩ := ih hfailure
      exact ⟨found, mem_cons_of_mem _ hmem, hfound⟩

theorem finish_merged {state : PagedLists Item}
    (h : List.Forall₂ (EndedList decode) servers state.lists) (hlimit : options.limit ≠ some 0)
    (hend : state.nextPage options = none) :
    Merged options (servers.map (fun server => server.pages decode)) (state.finish options) := by
  have hbelow : atLimit options ([] : List Item).length = false := atLimit_zero hlimit
  have hmerge := prefixFrom_ended h 0 hbelow
  have hflat : allPages decode servers = (servers.map (fun server => server.pages decode)).flatten := by
    rw [allPages, flatMap_def]
  rw [hflat] at hmerge
  unfold finish merged
  unfold nextPage merged at hend
  generalize prefixFrom options state.lists 0 0 = merged at hmerge hend ⊢
  cases hmerge with
  | all hresult hclear =>
    left
    rw [hresult]
    refine congrArg ok ?_
    cases hcase : options.limit with
    | none => exact take_length
    | some limit =>
      unfold atLimit at hclear
      rw [hcase] at hclear
      have hlt : ¬limit ≤ (state.lists.flatMap shown).length := of_decide_eq_false hclear
      exact take_of_length_le (Nat.le_min.mpr ⟨Nat.le_refl _, Nat.le_of_lt (Nat.lt_of_not_le hlt)⟩)
  | full items hresult hle hfull =>
    left
    rw [hresult]
    obtain ⟨hsome, hreached⟩ := atLimit_some hfull
    obtain ⟨limit, hcase⟩ := ne_none_iff_exists'.mp hsome
    rw [hcase]
    dsimp only [cut]
    rw [Nat.min_eq_right (hreached limit hcase)]
    rfl
  | failed items position reason hresult hfirst =>
    left
    rw [hresult]
    rw [firstFailure, hfirst]
  | unlaunched items i list hlist hlaunch hbefore =>
    right
    dsimp only at hend ⊢
    rw [isNone_some, if_neg (by decide), firstFailure] at hend
    rw [firstFailure]
    have hall : (firstFailureFrom state.lists 0).map Prod.fst |>.all
        (fun failed => PagePosition.before ⟨0 + i, list.pages.length + 1⟩ failed) := by
      cases hfailure : firstFailureFrom state.lists 0 with
      | none => rfl
      | some failure => exact hbefore failure hfailure
    have hfound := findPage_found hlist hlaunch hall
    split at hend
    · rename_i hstop
      rw [Bool.and_eq_true, isSome_map, isNone_iff_eq_none] at hstop
      obtain ⟨failure, hfailure⟩ := isSome_iff_exists.mp hstop.1
      obtain ⟨server, hmem, hsequential⟩ := firstFailureFrom_pages h hstop.2 hfailure
      rw [hfailure]
      exact ⟨hstop.2, _, mem_map_of_mem hmem, failure.2, hsequential, rfl⟩
    · obtain ⟨htrue, hfalse⟩ := or_eq_none_iff.mp hend
      cases hempty : decide (list.pages.length = 0) with
      | true =>
        rw [hempty] at hfound
        exact absurd htrue hfound
      | false =>
        rw [hempty] at hfound
        exact absurd hfalse hfound

end Bbr.Bitbucket

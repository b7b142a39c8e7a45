import Bbr.Bitbucket.PagingRuns

/-!
# What a List of pages relies on

A server with finitely many pages, each at its number and at the link of the page before it; and one
whose links form a cycle.
-/
namespace Bbr.Bitbucket

open List Option

variable {Item Value : Type} (options : PagedListOptions) (decode : Value → Except PageError Item)
  (fetch : Bytes → Except PageError (NumberedPage Value))

/-- The URL of a page by its number. -/
def pageAt (first : Bytes) (number : Nat) : Bytes :=
  if pageNumber options number = 1 then first else numberedUrl first (pageNumber options number)

/-- Every page links to the next one by number. -/
def NumberedLinks (first : Bytes) (raw : List (Except PageError (NumberedPage Value))) : Prop :=
  ∀ (k : Nat) page next, raw[k]? = some (.ok page) → page.next = some next →
    numberedNext next first (pageNumber options (k + 1) + 1) = true

/-- A finite List: every page is served at its number and at the link of the page before it, any page
may fail, and what a page reports of itself is true. A first page that reports `size` and links by
number stands for all of them. -/
structure Served (first : Bytes) (pagelen : Nat)
    (raw : List (Except PageError (NumberedPage Value))) : Prop where
  nonempty : raw ≠ []
  counted : 0 < options.firstPage
  fits : options.firstPage + raw.length ≤ maxU32
  positive : 0 < pagelen
  requested : pagelen ≤ options.pagelen
  byNumber : ∀ (k : Nat) reply, raw[k]? = some reply → fetch (pageAt options first (k + 1)) = reply
  byLink : ∀ (k : Nat) page next, raw[k]? = some (.ok page) → page.next = some next →
    raw[k + 1]? = some (fetch next)
  ends : ∀ (k : Nat) page, raw[k]? = some (.ok page) → page.next = none → k + 1 = raw.length
  pageField : ∀ k page, raw[k]? = some (.ok page) →
    page.page.getD (pageNumber options (k + 1)) = pageNumber options (k + 1)
  pagelens : ∀ (k : Nat) page, raw[k]? = some (.ok page) → page.pagelen.getD pagelen = pagelen
  firstPagelen : ∀ page, raw[0]? = some (.ok page) → page.pagelen.getD options.pagelen = pagelen
  size : ∀ page size, raw[0]? = some (.ok page) → page.size = some size →
    size ≤ pagelen * (options.firstPage - 1 + raw.length)
  numbered : ∀ page next size, raw[0]? = some (.ok page) → page.next = some next →
    page.size = some size → numberedNext next first (pageNumber options 1 + 1) = true →
      NumberedLinks options first raw

/-- The items of a page, or what fails it. -/
def contents (reply : Except PageError (NumberedPage Value)) : Except PageError (List Item) :=
  match reply with
  | .error reason => .error reason
  | .ok page => page.values.mapM decode

/-- What a List of a finite server keeps. -/
structure ServedList (first : Bytes) (pagelen : Nat)
    (raw : List (Except PageError (NumberedPage Value))) (list : PagedList Item) : Prop where
  first_eq : list.first = first
  launched : list.pages.length ≤ list.known
  known_le : list.known ≤ raw.length
  pages : ∀ (k : Nat) state, list.pages[k]? = some state →
    state = .pending ∨ ∃ reply, raw[k]? = some reply ∧ state = settled (contents decode reply)
  last : list.last = none ∨ list.last = some raw.length
  lastDone : list.last = some raw.length ↔ ∃ items, list.pages[raw.length - 1]? = some (.done items)
  ahead : ∀ (k : Nat) items, list.pages[k]? = some (.done items) → k + 1 < raw.length → k + 1 < list.known
  pagelen_eq : 1 < list.known → list.pagelen = pagelen
  unlaunched : list.pages.length + 1 < list.known → NumberedLinks options first raw
  underway : ∀ (k : Nat), list.pages[k]? = some .pending → k + 1 < list.known →
    NumberedLinks options first raw
  link : ∀ url, list.link = some url → list.pages.length + 1 = list.known ∧
    raw[list.pages.length]? = some (fetch url)
  fresh : (list.pages[0]? = none ∨ list.pages[0]? = some .pending) →
    list.known = 1 ∧ list.link = none ∧ list.followed = []
  followed : ∀ url ∈ list.followed, ∃ j, j < list.known ∧ raw[j]? = some (fetch url) ∧
    ∀ t, j ≤ t → t + 1 < list.known → ∃ items, list.pages[t]? = some (.done items)

variable {options decode fetch} {first url : Bytes} {pagelen c : Nat}
  {raw : List (Except PageError (NumberedPage Value))} {list : PagedList Item}
  {reply : Except PageError (NumberedPage Value)}

section

variable (h : Served options fetch first pagelen raw)
include h

/-- Pages that follow on each other and repeat never come to an end. -/
theorem Served.no_cycle {j : Nat} (hjc : j ≤ c) (hrepeat : raw[c + 1]? = raw[j]?)
    (hnext : c + 1 < raw.length) (hok : ∀ t, j ≤ t → t ≤ c → ∃ page, raw[t]? = some (.ok page)) :
    False := by
  have hgoes : ∀ m, raw[j + m + (c + 1 - j)]? = raw[j + m]? ∧
      ∃ page next, raw[j + m]? = some (.ok page) ∧ page.next = some next := by
    intro m
    induction m using Nat.strongRecOn with
    | ind m ih =>
      have hsame : raw[j + m + (c + 1 - j)]? = raw[j + m]? := by
        cases m with
        | zero =>
          have hindex : j + 0 + (c + 1 - j) = c + 1 := by omega
          rw [hindex]
          exact hrepeat
        | succ m =>
          obtain ⟨hprevious, page, next, hpage, hlink⟩ := ih m (Nat.lt_succ_self m)
          have hindex : j + (m + 1) + (c + 1 - j) = j + m + (c + 1 - j) + 1 := by omega
          have hsecond : j + (m + 1) = j + m + 1 := by omega
          rw [hindex, hsecond, h.byLink _ page next (hprevious.trans hpage) hlink,
            h.byLink _ page next hpage hlink]
      refine ⟨hsame, ?_⟩
      by_cases hm : m < c + 1 - j
      · obtain ⟨page, hpage⟩ := hok (j + m) (by omega) (by omega)
        cases hlink : page.next with
        | some next => exact ⟨page, next, hpage, hlink⟩
        | none =>
          have hend := h.ends _ page hpage hlink
          omega
      · obtain ⟨hearlier, page, next, hpage, hlink⟩ := ih (m - (c + 1 - j)) (by omega)
        have hindex : j + (m - (c + 1 - j)) + (c + 1 - j) = j + m := by omega
        rw [hindex] at hearlier
        exact ⟨page, next, hearlier.trans hpage, hlink⟩
  obtain ⟨-, page, next, hpage, -⟩ := hgoes raw.length
  have hlt := (List.getElem?_eq_some_iff.mp hpage).1
  omega

theorem Served.length_pos : 0 < raw.length := length_pos_iff.mpr h.nonempty

theorem Served.startList :
    ServedList options decode fetch first pagelen raw ({ first := first } : PagedList Item) where
  first_eq := rfl
  launched := Nat.zero_le 1
  known_le := h.length_pos
  pages k state hk := by cases hk
  last := .inl rfl
  lastDone := ⟨fun h => (by cases h), fun ⟨_, h⟩ => (by cases h)⟩
  ahead k items hk := by cases hk
  pagelen_eq h := absurd h (Nat.lt_irrefl 1)
  unlaunched h := absurd h (Nat.lt_irrefl 1)
  underway k hk := by cases hk
  link url h := by cases h
  fresh _ := ⟨rfl, rfl, rfl⟩
  followed url h := absurd h not_mem_nil

end

theorem launchable_lt (h : launchable options list = true) : list.pages.length < list.known := by
  unfold launchable at h
  rw [Bool.and_eq_true, Bool.and_eq_true] at h
  exact of_decide_eq_true h.1.1

theorem Served.pageUrl (h : Served options fetch first pagelen raw)
    (hlist : ServedList options decode fetch first pagelen raw list)
    (hlt : list.pages.length < list.known) :
    raw[list.pages.length]? = some (fetch (pageUrl options list)) := by
  have hbound : list.pages.length < raw.length := Nat.lt_of_lt_of_le hlt hlist.known_le
  have hraw : raw[list.pages.length]? = some raw[list.pages.length] := getElem?_eq_getElem hbound
  have hserved := h.byNumber _ _ hraw
  unfold pageAt at hserved
  unfold Bitbucket.pageUrl
  dsimp only
  rw [hlist.first_eq]
  split
  · rename_i hnumber
    rw [if_pos hnumber] at hserved
    rw [hserved, hraw]
  · rename_i hnumber
    rw [if_neg hnumber] at hserved
    cases hlink : list.link with
    | none =>
      rw [hserved, hraw]
    | some link => exact (hlist.link link hlink).2

variable {k : Nat} {items : List Item}

theorem launchPage_done :
    (launchPage options list).pages[k]? = some (.done items) ↔ list.pages[k]? = some (.done items) := by
  rw [launchPage_pages]
  obtain hlt | heq | hgt := Nat.lt_trichotomy k list.pages.length
  · rw [getElem?_append_left hlt]
  · rw [heq, getElem?_concat_length, getElem?_eq_none (Nat.le_refl _)]
    exact ⟨fun h => (by cases h), fun h => (by cases h)⟩
  · rw [getElem?_eq_none (Nat.le_of_lt hgt), getElem?_eq_none]
    rw [length_append, length_singleton]
    omega

theorem ServedList.launch (hcounted : 0 < options.firstPage)
    (h : ServedList options decode fetch first pagelen raw list) (hlt : list.pages.length < list.known) :
    ServedList options decode fetch first pagelen raw (launchPage options list) := by
  have hlength : (launchPage options list).pages.length = list.pages.length + 1 := by
    rw [launchPage_pages, length_append, length_singleton]
  have hfreshPages : (launchPage options list).pages[0]? = none ∨
      (launchPage options list).pages[0]? = some .pending →
        list.pages[0]? = none ∨ list.pages[0]? = some .pending := by
    rw [launchPage_pending]
    rintro (hnone | hpending | hempty)
    · rw [getElem?_eq_none_iff, hlength] at hnone
      omega
    · exact .inr hpending
    · exact .inl (getElem?_eq_none (by omega))
  refine ⟨h.first_eq, by rw [hlength]; exact hlt, h.known_le, ?_, h.last, ?_, ?_, h.pagelen_eq, ?_, ?_,
    ?_, ?_, ?_⟩
  · intro k state hk
    rw [launchPage_pages] at hk
    obtain hold | hnew := Nat.lt_or_ge k list.pages.length
    · rw [getElem?_append_left hold] at hk
      exact h.pages k state hk
    · rw [getElem?_append_right hnew] at hk
      exact .inl (mem_singleton.mp (mem_of_getElem? hk))
  · rw [show (launchPage options list).last = list.last from rfl, h.lastDone]
    exact exists_congr (fun items => launchPage_done.symm)
  · exact fun k items hk => h.ahead k items (launchPage_done.mp hk)
  · exact fun hlt => h.unlaunched (by rw [hlength] at hlt; exact Nat.lt_of_succ_lt hlt)
  · intro k hk hlt
    obtain hk | rfl := launchPage_pending.mp hk
    · exact h.underway k hk hlt
    · exact h.unlaunched hlt
  · intro url hurl
    unfold launchPage at hurl
    split at hurl
    · rename_i hnumber
      have hempty : list.pages.length = 0 := by
        unfold pageNumber at hnumber
        omega
      rw [(h.fresh (.inl (getElem?_eq_none (by omega)))).2.1] at hurl
      cases hurl
    · cases hurl
  · intro hfresh
    obtain ⟨hknown, hlink, hfollowed⟩ := h.fresh (hfreshPages hfresh)
    refine ⟨hknown, ?_, hfollowed⟩
    unfold launchPage
    rw [hlink, ite_self]
  · intro url hurl
    obtain ⟨j, hj, hraw, hdone⟩ := h.followed url hurl
    refine ⟨j, hj, hraw, fun t ht hlt => ?_⟩
    obtain ⟨items, hitems⟩ := hdone t ht hlt
    exact ⟨items, launchPage_done.mpr hitems⟩

variable (options) in
/-- What the numbers of a page may change. -/
structure Numbers (first : Bytes) (pagelen : Nat)
    (raw : List (Except PageError (NumberedPage Value))) (list : PagedList Item) (c pl kn : Nat) :
    Prop where
  pagelen_eq : 1 < kn → pl = pagelen
  known_ge : list.known ≤ kn
  known_le : kn ≤ raw.length
  later : c ≠ 0 → kn = list.known
  links : c = 0 → 1 < kn → NumberedLinks options first raw

theorem getElem?_set_cases {α : Type} {l : List α} {x y : α} (h : (l.set c x)[k]? = some y) :
    (k = c ∧ y = x) ∨ (k ≠ c ∧ l[k]? = some y) := by
  rw [getElem?_set] at h
  split at h
  · next heq =>
    split at h
    · exact .inl ⟨heq.symm, (some.inj h).symm⟩
    · cases h
  · next hne => exact .inr ⟨Ne.symm hne, h⟩

section Completion

variable {pages : List (PageState Item)} {state : PageState Item}

theorem getElem?_set_done {t : Nat} (hpending : pages[c]? = some .pending)
    (h : pages[t]? = some (.done items)) : (pages.set c state)[t]? = some (.done items) := by
  have hne : c ≠ t := by
    rintro rfl
    rw [hpending] at h
    cases h
  rw [getElem?_set_ne hne]
  exact h

/-- After a page has completed, the first one is only open when it was another page. -/
theorem open_of_set (hpending : pages[c]? = some .pending) (hstate : state ≠ .pending)
    (h : (pages.set c state)[0]? = none ∨ (pages.set c state)[0]? = some .pending) :
    c ≠ 0 ∧ (pages[0]? = none ∨ pages[0]? = some .pending) := by
  have hlt : c < pages.length := (List.getElem?_eq_some_iff.mp hpending).1
  obtain hnone | hopen := h
  · rw [getElem?_eq_none_iff, length_set] at hnone
    omega
  · obtain ⟨-, hsame⟩ | ⟨hne, hold⟩ := getElem?_set_cases hopen
    · exact absurd hsame.symm hstate
    · exact ⟨hne.symm, .inr hold⟩

end Completion

variable {pl kn : Nat}

section

variable (h : ServedList options decode fetch first pagelen raw list)
include h

theorem ServedList.pages_set (hraw : raw[c]? = some reply) (k : Nat) (state : PageState Item)
    (hk : (list.pages.set c (settled (contents decode reply)))[k]? = some state) :
    state = .pending ∨ ∃ reply, raw[k]? = some reply ∧ state = settled (contents decode reply) := by
  obtain ⟨rfl, hsame⟩ | ⟨-, hold⟩ := getElem?_set_cases hk
  · exact .inr ⟨reply, hraw, hsame⟩
  · exact h.pages k state hold

/-- A page that is not the last one does not decide whether the List has come to its end. -/
theorem ServedList.lastDone_set {state : PageState Item} (hpending : list.pages[c]? = some .pending)
    (hnot : ∀ items, state = .done items → c + 1 < raw.length) : list.last = some raw.length ↔
      ∃ items, (list.pages.set c state)[raw.length - 1]? = some (.done items) := by
  rw [h.lastDone]
  constructor
  · rintro ⟨items, hitems⟩
    exact ⟨items, getElem?_set_done hpending hitems⟩
  · rintro ⟨items, hitems⟩
    obtain ⟨heq, hsame⟩ | ⟨-, hold⟩ := getElem?_set_cases hitems
    · have hbehind := hnot items hsame.symm
      omega
    · exact ⟨items, hold⟩

theorem ServedList.settle (hpending : list.pages[c]? = some .pending)
    (hraw : raw[c]? = some reply) (hnumbers : Numbers options first pagelen raw list c pl kn)
    (last : Option Nat) (hlast : (last = list.last ∧
        ∀ items, contents decode reply = .ok items → c + 1 < raw.length ∧ c + 1 < kn) ∨
      (last = some raw.length ∧ c + 1 = raw.length ∧ ∃ items, contents decode reply = .ok items)) :
    ServedList options decode fetch first pagelen raw
      { list with
        pagelen := pl
        known := kn
        last := last
        pages := list.pages.set c (settled (contents decode reply)) } := by
  have hlt : c < list.pages.length := (List.getElem?_eq_some_iff.mp hpending).1
  have hlaunched := h.launched
  have hkn := hnumbers.known_ge
  have hok : ∀ items, PageState.done items = settled (contents decode reply) →
      contents decode reply = .ok items := by
    intro items heq
    cases hreply : contents decode reply with
    | error reason =>
      rw [hreply] at heq
      cases heq
    | ok found =>
      rw [hreply] at heq
      cases heq
      rfl
  -- The first page says how many follow; any other one leaves the number of pages.
  have hwhich : (c = 0 ∧ list.known = 1 ∧ list.link = none ∧ list.followed = []) ∨
      (c ≠ 0 ∧ kn = list.known) := by
    by_cases hc : c = 0
    · subst hc
      exact .inl ⟨rfl, h.fresh (.inr hpending)⟩
    · exact .inr ⟨hc, hnumbers.later hc⟩
  refine ⟨h.first_eq, by rw [length_set]; exact Nat.le_trans hlaunched hkn, hnumbers.known_le,
    h.pages_set hraw, ?_, ?_, ?_, hnumbers.pagelen_eq, ?_, ?_, ?_, ?_, ?_⟩
  · obtain ⟨rfl, -⟩ | ⟨rfl, -⟩ := hlast
    · exact h.last
    · exact .inr rfl
  · obtain ⟨rfl, hnot⟩ | ⟨rfl, hend, items, hitems⟩ := hlast
    · exact h.lastDone_set hpending (fun items heq => (hnot items (hok items heq.symm)).1)
    · refine iff_of_true rfl ⟨items, ?_⟩
      have hindex : raw.length - 1 = c := by omega
      rw [hindex, hitems]
      exact getElem?_set_self hlt
  · intro k items hk hbefore
    obtain ⟨rfl, hsame⟩ | ⟨-, hold⟩ := getElem?_set_cases hk
    · obtain ⟨-, hnot⟩ | ⟨-, hend, -⟩ := hlast
      · exact (hnot items (hok items hsame)).2
      · omega
    · exact Nat.lt_of_lt_of_le (h.ahead k items hold hbefore) hkn
  · intro hahead
    dsimp only at hahead
    rw [length_set] at hahead
    obtain ⟨hc, -⟩ | ⟨-, rfl⟩ := hwhich
    · exact hnumbers.links hc (by omega)
    · exact h.unlaunched hahead
  · intro k hk hahead
    obtain ⟨-, hsame⟩ | ⟨hne, hold⟩ := getElem?_set_cases hk
    · exact absurd hsame.symm (settled_ne_pending _)
    obtain ⟨rfl, hone, -⟩ | ⟨-, rfl⟩ := hwhich
    · have hklt : k < list.pages.length := (List.getElem?_eq_some_iff.mp hold).1
      omega
    · exact h.underway k hold hahead
  · intro url hurl
    obtain ⟨-, -, hnone, -⟩ | ⟨-, rfl⟩ := hwhich
    · rw [hnone] at hurl
      cases hurl
    · rw [length_set]
      exact h.link url hurl
  · intro hfresh
    obtain ⟨hc, hopen⟩ := open_of_set hpending (settled_ne_pending _) hfresh
    have hone := (h.fresh hopen).1
    omega
  · intro url hurl
    obtain ⟨-, -, -, hempty⟩ | ⟨-, rfl⟩ := hwhich
    · rw [hempty] at hurl
      cases hurl
    obtain ⟨j, hj, hserved, hall⟩ := h.followed url hurl
    refine ⟨j, hj, hserved, fun t ht hbefore => ?_⟩
    obtain ⟨items, hitems⟩ := hall t ht hbefore
    exact ⟨items, getElem?_set_done hpending hitems⟩

variable {next : Bytes}

/-- A page completes with a link to the page behind the known ones. -/
theorem ServedList.follow (hpending : list.pages[c]? = some .pending)
    (hraw : raw[c]? = some (fetch url))
    (hnumbers : Numbers options first pagelen raw list c pl (c + 1)) (hpl : pl = pagelen)
    (hitems : contents decode (fetch url) = .ok items) (hnext : raw[c + 1]? = some (fetch next)) :
    ServedList options decode fetch first pagelen raw
      { list with
        pagelen := pl
        known := c + 2
        link := some next
        pages := list.pages.set c (.done items)
        followed := url :: list.followed } := by
  have hlt : c < list.pages.length := (List.getElem?_eq_some_iff.mp hpending).1
  have hbehind : c + 1 < raw.length := (List.getElem?_eq_some_iff.mp hnext).1
  have hlaunched := h.launched
  have hkn := hnumbers.known_ge
  have hself : (list.pages.set c (.done items))[c]? = some (.done items) := getElem?_set_self hlt
  have hlength : (list.pages.set c (PageState.done items)).length = c + 1 := by
    rw [length_set]
    omega
  have hpages := h.pages_set hraw
  rw [hitems] at hpages
  refine ⟨h.first_eq, by rw [hlength]; exact Nat.le_succ _, hbehind, hpages, h.last,
    h.lastDone_set hpending (fun _ _ => hbehind), ?_, fun _ => hpl, ?_, ?_, ?_, ?_, ?_⟩
  · intro k found hk hbefore
    dsimp only
    obtain ⟨rfl, -⟩ | ⟨-, hold⟩ := getElem?_set_cases hk
    · omega
    · have hahead := h.ahead k found hold hbefore
      omega
  · intro hahead
    rw [hlength] at hahead
    exact absurd hahead (Nat.lt_irrefl _)
  · intro k hk hahead
    dsimp only at hahead
    obtain ⟨-, hsame⟩ | ⟨hne, hold⟩ := getElem?_set_cases hk
    · cases hsame
    · exact h.underway k hold (by omega)
  · intro link hlink
    cases hlink
    rw [hlength]
    exact ⟨rfl, hnext⟩
  · intro hfresh
    obtain ⟨hc, hopen⟩ := open_of_set hpending (settled_ne_pending (.ok items)) hfresh
    have hone := (h.fresh hopen).1
    omega
  · intro link hlink
    dsimp only at hlink ⊢
    obtain rfl | hlink := mem_cons.mp hlink
    · refine ⟨c, Nat.lt_succ_of_lt (Nat.lt_succ_self c), hraw, fun t ht hbefore => ?_⟩
      have heq : t = c := by omega
      rw [heq]
      exact ⟨items, hself⟩
    obtain ⟨j, hj, hserved, hall⟩ := h.followed link hlink
    refine ⟨j, by omega, hserved, fun t ht hbefore => ?_⟩
    by_cases heq : t = c
    · rw [heq]
      exact ⟨items, hself⟩
    · obtain ⟨found, hfound⟩ := hall t ht (by omega)
      exact ⟨found, getElem?_set_done hpending hfound⟩

theorem ServedList.raw_ok (hk : list.pages[k]? = some (.done items)) :
    ∃ page, raw[k]? = some (.ok page) := by
  obtain hpending | ⟨reply, hraw, hsettled⟩ := h.pages k _ hk
  · cases hpending
  · cases reply with
    | error reason => cases hsettled
    | ok page => exact ⟨page, hraw⟩

end

section

variable (hs : Served options fetch first pagelen raw)
  (h : ServedList options decode fetch first pagelen raw list)
  (hpending : list.pages[c]? = some .pending)
include hs h hpending

theorem Served.acceptNumbers {page : NumberedPage Value} (hraw : raw[c]? = some (.ok page)) :
    ∃ kn, Numbers options first pagelen raw list c pagelen kn ∧
      acceptNumbers options list (c + 1) page =
        ({ list with pagelen := pagelen, known := kn }, true) := by
  have hlt : c < list.pages.length := (List.getElem?_eq_some_iff.mp hpending).1
  have hlaunched := h.launched
  unfold Bitbucket.acceptNumbers
  by_cases hc : c = 0
  · subst hc
    obtain ⟨hknown, -, -⟩ := h.fresh (.inr hpending)
    have hpagelen := hs.firstPagelen page hraw
    have hpositive := hs.positive
    have hrequested := hs.requested
    have hstay : Numbers options first pagelen raw list 0 pagelen list.known :=
      ⟨fun _ => rfl, Nat.le_refl _, h.known_le, fun hne => absurd rfl hne, fun _ hlt => by omega⟩
    rw [if_pos rfl, hpagelen, if_neg (by omega)]
    cases hnext : page.next with
    | none => exact ⟨list.known, hstay, rfl⟩
    | some next =>
      cases hsize : page.size with
      | none => exact ⟨list.known, hstay, rfl⟩
      | some size =>
        dsimp only
        split
        · rename_i hnumbered
          rw [h.first_eq] at hnumbered
          have hbound := hs.size page size hraw hsize
          have hfits := hs.fits
          have htotal : (size + pagelen - 1) / pagelen ≤ options.firstPage - 1 + raw.length := by
            refine Nat.le_of_lt_succ ((Nat.div_lt_iff_lt_mul hpositive).mpr ?_)
            rw [Nat.succ_mul, Nat.mul_comm]
            omega
          have hlength := hs.length_pos
          rw [if_neg (by omega)]
          refine ⟨_, ⟨fun _ => rfl, ?_, ?_, fun hne => absurd rfl hne, fun _ _ => ?_⟩, rfl⟩
          · rw [hknown]
            exact Nat.le_max_left _ _
          · exact Nat.max_le.mpr ⟨hlength, by omega⟩
          · exact hs.numbered page next size hraw hnext hsize hnumbered
        · exact ⟨list.known, hstay, rfl⟩
  · have hpl : list.pagelen = pagelen := h.pagelen_eq (by omega)
    have hsame := hs.pagelens c page hraw
    rw [if_neg (by omega), hpl, hsame, beq_self_eq_true]
    refine ⟨list.known, ⟨fun _ => rfl, Nat.le_refl _, h.known_le, fun _ => rfl, fun hzero => absurd hzero hc⟩,
      ?_⟩
    rw [← hpl]

theorem ServedList.complete (hraw : raw[c]? = some (fetch url)) :
    ServedList options decode fetch first pagelen raw
      (completePage options decode fetch list (c + 1) url) := by
  have hlt : c < list.pages.length := (List.getElem?_eq_some_iff.mp hpending).1
  have hlaunched := h.launched
  unfold completePage accept
  rw [Nat.add_sub_cancel]
  cases hreply : fetch url with
  | error reason =>
    rw [hreply] at hraw
    have hstay : Numbers options first pagelen raw list c list.pagelen list.known := by
      refine ⟨h.pagelen_eq, Nat.le_refl _, h.known_le, fun _ => rfl, ?_⟩
      rintro rfl hone
      have hknown := (h.fresh (.inr hpending)).1
      omega
    exact h.settle hpending hraw hstay list.last (.inl ⟨rfl, fun items hok => by cases hok⟩)
  | ok page =>
    rw [hreply] at hraw
    obtain ⟨kn, hnumbers, haccept⟩ := hs.acceptNumbers h hpending hraw
    dsimp only
    rw [if_neg (not_not_intro (hs.pageField c page hraw)), haccept]
    dsimp only
    cases hdecode : page.values.mapM decode with
    | error reason =>
      have hcontents : contents decode (.ok page) = (.error reason : Except PageError (List Item)) :=
        hdecode
      have hsettled := h.settle hpending hraw hnumbers list.last
        (.inl ⟨rfl, fun items hok => by rw [hcontents] at hok; cases hok⟩)
      rw [hcontents] at hsettled
      exact hsettled
    | ok items =>
      have hcontents : contents decode (.ok page) = .ok items := hdecode
      unfold acceptNext
      cases hnext : page.next with
      | none =>
        have hend := hs.ends c page hraw hnext
        have hsettled := h.settle hpending hraw hnumbers (some raw.length)
          (.inr ⟨rfl, hend, items, hcontents⟩)
        rw [hcontents] at hsettled
        have hlast : list.last.getD (c + 1) = c + 1 := by
          obtain hnone | hsome := h.last
          · rw [hnone, getD_none]
          · rw [hsome, getD_some, hend]
        rw [hlast, Nat.min_self, hend]
        exact hsettled
      | some next =>
        have hserved := hs.byLink c page next hraw hnext
        have hbehind : c + 1 < raw.length := (List.getElem?_eq_some_iff.mp hserved).1
        dsimp only
        by_cases hahead : c + 1 < kn
        · have hlinks : NumberedLinks options first raw := by
            by_cases hc : c = 0
            · exact hnumbers.links hc (by omega)
            · rw [hnumbers.later hc] at hahead
              exact h.underway c hpending hahead
          have hnumbered : numberedNext next list.first (pageNumber options (c + 1) + 1) = true := by
            rw [h.first_eq]
            exact hlinks c page next hraw hnext
          have hsettled := h.settle hpending hraw hnumbers list.last
            (.inl ⟨rfl, fun _ _ => ⟨hbehind, hahead⟩⟩)
          rw [hcontents] at hsettled
          rw [if_pos hahead, hnumbered]
          exact hsettled
        · have hkn : kn = c + 1 := by
            have hge := hnumbers.known_ge
            omega
          have hcycle : ∀ j, j ≤ c → raw[j]? = some (fetch next) →
              (∀ t, j ≤ t → t < c → ∃ items, list.pages[t]? = some (.done items)) → False := by
            intro j hj hsame hdone
            refine hs.no_cycle hj (hserved.trans hsame.symm) hbehind (fun t ht htc => ?_)
            obtain hbefore | heq := Nat.lt_or_eq_of_le htc
            · obtain ⟨found, hfound⟩ := hdone t ht hbefore
              exact h.raw_ok hfound
            · exact ⟨page, by rw [heq, hraw]⟩
          have hself : (url == next) = false := by
            rw [beq_eq_false_iff_ne]
            rintro rfl
            exact hcycle c (Nat.le_refl c) (by rw [hreply, hraw]) (fun t ht htc => by omega)
          have hnew : list.followed.contains next = false := by
            rw [contains_eq_mem, decide_eq_false_iff_not]
            intro hmem
            obtain ⟨j, hj, hsame, hdone⟩ := h.followed next hmem
            have hknown := hnumbers.known_ge
            exact hcycle j (by omega) hsame (fun t ht htc => hdone t ht (by omega))
          rw [if_neg hahead, hself, hnew]
          rw [hkn] at hnumbers
          have hfollow := h.follow hpending (hreply ▸ hraw) hnumbers rfl (hreply ▸ hcontents) hserved
          exact hfollow

end

/-- A finite server is a world; it serves no page twice. -/
def servedWorld (h : Served options fetch first pagelen raw) :
    PageWorld options decode fetch first where
  inv := ServedList options decode fetch first pagelen raw
  serves _ number url := ∃ k, number = k + 1 ∧ raw[k]? = some (fetch url)
  bound := raw.length
  start := h.startList
  launch hlist hlaunch :=
    ⟨hlist.launch h.counted (launchable_lt hlaunch),
      ⟨_, rfl, h.pageUrl hlist (launchable_lt hlaunch)⟩, fun _ _ hserved => hserved⟩
  complete hlist hpending hserved := by
    obtain ⟨k, hk, hraw⟩ := hserved
    cases hk
    exact ⟨hlist.complete h hpending hraw, fun _ _ _ hother => hother⟩
  bounded hlist := Nat.le_trans hlist.launched hlist.known_le

/-! ### Links that form a cycle -/

/-- A List whose pages all link on, to one of finitely many URLs. -/
structure Cyclic (options : PagedListOptions)
    (fetch : Bytes → Except PageError (NumberedPage Value)) (first : Bytes) (urls : List Bytes) :
    Prop where
  counted : 0 < options.firstPage
  byNumber : ∀ number page, fetch (pageAt options first number) = .ok page →
    ∃ next ∈ urls, page.next = some next
  byLink : ∀ url ∈ urls, ∀ page, fetch url = .ok page → ∃ next ∈ urls, page.next = some next

/-- What a List with cyclic links keeps. -/
structure CyclicList (first : Bytes) (urls : List Bytes) (list : PagedList Item) : Prop where
  first_eq : list.first = first
  launched : list.pages.length ≤ list.known
  known_le : list.known ≤ maxU32 + list.followed.length
  last : list.last = none
  link : ∀ url, list.link = some url → url ∈ urls ∧ url ∉ list.followed
  distinct : list.followed.Nodup
  followed : ∀ url ∈ list.followed.dropLast, url ∈ urls
  ahead : list.followed ≠ [] → list.known ≤ list.pages.length + 1 ∧
    (list.pages.length < list.known → list.link ≠ none)
  fresh : (list.pages[0]? = none ∨ list.pages[0]? = some .pending) →
    list.known = 1 ∧ list.link = none ∧ list.followed = []

/-- The request of a page: one of the List's own URLs, not yet recorded if the page may be. -/
structure CyclicRequest (options : PagedListOptions) (first : Bytes) (urls : List Bytes)
    (list : PagedList Item) (number : Nat) (url : Bytes) : Prop where
  launched : number ≤ list.pages.length
  own : url ∈ urls ∨ url = pageAt options first number
  fresh : number = list.known → url ∉ list.followed ∧ (list.followed ≠ [] → url ∈ urls)

variable {urls : List Bytes} {number : Nat} {state : PageState Item}

section

variable (hcounted : 0 < options.firstPage) (h : CyclicList first urls list)
  (hlt : list.pages.length < list.known)
include hcounted h hlt

theorem pageUrl_own : (pageUrl options list ∈ urls ∧ pageUrl options list ∉ list.followed) ∨
      (pageUrl options list = pageAt options first (list.pages.length + 1) ∧ list.followed = []) := by
  unfold pageUrl pageAt
  rw [h.first_eq]
  dsimp only
  split
  · rename_i hnumber
    have hempty : list.pages.length = 0 := by
      unfold pageNumber at hnumber
      omega
    exact .inr ⟨rfl, (h.fresh (.inl (getElem?_eq_none (by omega)))).2.2⟩
  · cases hlink : list.link with
    | some link => exact .inl (h.link link hlink)
    | none =>
      refine .inr ⟨rfl, ?_⟩
      by_contra hne
      exact (h.ahead hne).2 hlt hlink

theorem CyclicList.launch : CyclicList first urls (launchPage options list) ∧
      CyclicRequest options first urls (launchPage options list) (list.pages.length + 1)
        (pageUrl options list) := by
  have hlength : (launchPage options list).pages.length = list.pages.length + 1 := by
    rw [launchPage_pages, length_append, length_singleton]
  have hlink : ∀ url, (launchPage options list).link = some url → list.link = some url := by
    intro url hurl
    unfold launchPage at hurl
    split at hurl
    · exact hurl
    · cases hurl
  constructor
  · refine ⟨h.first_eq, by rw [hlength]; exact hlt, h.known_le, h.last,
      fun url hurl => h.link url (hlink url hurl), h.distinct, h.followed, ?_, ?_⟩
    · intro hne
      obtain ⟨hle, -⟩ := h.ahead hne
      rw [hlength]
      exact ⟨Nat.le_succ_of_le hle, fun hbefore => absurd hle (Nat.not_le_of_lt hbefore)⟩
    intro hfresh
    have hold : list.pages[0]? = none ∨ list.pages[0]? = some .pending := by
      obtain hnone | hpending := hfresh
      · rw [getElem?_eq_none_iff, hlength] at hnone
        omega
      · obtain hpending | hempty := launchPage_pending.mp hpending
        · exact .inr hpending
        · exact .inl (getElem?_eq_none (by omega))
    obtain ⟨hknown, hnone, hfollowed⟩ := h.fresh hold
    refine ⟨hknown, ?_, hfollowed⟩
    cases hurl : (launchPage options list).link with
    | none => rfl
    | some url =>
      rw [hlink url hurl] at hnone
      cases hnone
  · refine ⟨by rw [hlength], ?_, fun _ => ?_⟩
    · obtain ⟨hmem, -⟩ | ⟨heq, -⟩ := pageUrl_own hcounted h hlt
      · exact .inl hmem
      · exact .inr heq
    · obtain ⟨hmem, hnew⟩ | ⟨-, hempty⟩ := pageUrl_own hcounted h hlt
      · exact ⟨hnew, fun _ => hmem⟩
      · change _ ∉ list.followed ∧ (list.followed ≠ [] → _)
        rw [hempty]
        exact ⟨not_mem_nil, fun hne => absurd rfl hne⟩

end

theorem one_le_maxU32 : 1 ≤ maxU32 := by decide

variable (options) in
/-- A first page may report how many pages there are; no other page does. -/
theorem acceptNumbers_known (list : PagedList Item) (number : Nat) (page : NumberedPage Value) :
    ∃ pl kn, (acceptNumbers options list number page).1 = { list with pagelen := pl, known := kn } ∧
      (kn = list.known ∨ (number = 1 ∧ 1 ≤ kn ∧ kn ≤ maxU32)) := by
  unfold acceptNumbers
  dsimp only
  split
  · rename_i hnumber
    split
    · exact ⟨_, _, rfl, .inl rfl⟩
    split
    · split
      · split
        · exact ⟨_, _, rfl, .inl rfl⟩
        · rename_i htotal
          refine ⟨_, _, rfl, .inr ⟨hnumber, Nat.le_max_left _ _, Nat.max_le.mpr ⟨one_le_maxU32, ?_⟩⟩⟩
          omega
      · exact ⟨_, _, rfl, .inl rfl⟩
    · exact ⟨_, _, rfl, .inl rfl⟩
  · exact ⟨_, _, rfl, .inl rfl⟩

variable (options) in
theorem acceptNext_some (list : PagedList Item) (number : Nat) (url next : Bytes) :
    (acceptNext options list number url (some next)).1 = list ∨
      (list.known ≤ number ∧ next ≠ url ∧ next ∉ list.followed ∧
        (acceptNext options list number url (some next)).1 =
          { list with
            followed := url :: list.followed
            link := some next
            known := number + 1 }) := by
  unfold acceptNext
  dsimp only
  split
  · exact .inl rfl
  rename_i hknown
  split
  · exact .inl rfl
  · rename_i hnew
    rw [Bool.or_eq_true, not_or, beq_iff_eq, contains_eq_mem, decide_eq_true_eq] at hnew
    exact .inr ⟨Nat.le_of_not_lt hknown, fun heq => hnew.1 heq.symm, hnew.2, rfl⟩

section

variable (h : CyclicList first urls list) (hpending : list.pages[c]? = some .pending)
  (hstate : state ≠ .pending) (hkn : kn = list.known ∨ (c + 1 = 1 ∧ 1 ≤ kn ∧ kn ≤ maxU32))
include h hpending hstate hkn

theorem CyclicList.settle : CyclicList first urls
        { list with pagelen := pl, known := kn, pages := list.pages.set c state } ∧
      ∀ number url, number ≠ c + 1 → CyclicRequest options first urls list number url →
        CyclicRequest options first urls
          { list with pagelen := pl, known := kn, pages := list.pages.set c state } number url := by
  have hlaunched := h.launched
  have hknown := h.known_le
  have hzero : c = 0 → list.known = 1 ∧ list.link = none ∧ list.followed = [] := by
    rintro rfl
    exact h.fresh (.inr hpending)
  have hlength : (list.pages.set c state).length = list.pages.length := length_set
  constructor
  · refine ⟨h.first_eq, ?_, ?_, h.last, h.link, h.distinct, h.followed, ?_, ?_⟩
    · dsimp only
      rw [hlength]
      obtain rfl | ⟨hc, hone, -⟩ := hkn
      · exact hlaunched
      · have hfirst := (hzero (by omega)).1
        omega
    · dsimp only
      obtain rfl | ⟨-, -, hle⟩ := hkn
      · exact hknown
      · exact Nat.le_trans hle (Nat.le_add_right _ _)
    · intro hne
      rw [hlength]
      obtain rfl | ⟨hc, -, -⟩ := hkn
      · exact h.ahead hne
      · exact absurd (hzero (by omega)).2.2 hne
    · intro hfresh
      obtain ⟨hc, hopen⟩ := open_of_set hpending hstate hfresh
      obtain rfl | ⟨hone, -, -⟩ := hkn
      · exact h.fresh hopen
      · omega
  · intro number url hne hrequest
    refine ⟨by dsimp only; rw [hlength]; exact hrequest.launched, hrequest.own, ?_⟩
    obtain rfl | ⟨hc, -, -⟩ := hkn
    · exact hrequest.fresh
    · rw [(hzero (by omega)).2.2]
      exact fun _ => ⟨not_mem_nil, fun hne => absurd rfl hne⟩

theorem CyclicList.follow {next : Bytes}
    (hrequest : CyclicRequest options first urls list (c + 1) url) (hle : kn ≤ c + 1)
    (hnext : next ∈ urls) (hne : next ≠ url) (hnew : next ∉ list.followed) :
    CyclicList first urls
        { list with
          pagelen := pl
          known := c + 2
          link := some next
          pages := list.pages.set c state
          followed := url :: list.followed } ∧
      ∀ number link, number ≠ c + 1 → CyclicRequest options first urls list number link →
        CyclicRequest options first urls
          { list with
            pagelen := pl
            known := c + 2
            link := some next
            pages := list.pages.set c state
            followed := url :: list.followed } number link := by
  have hlt : c < list.pages.length := (List.getElem?_eq_some_iff.mp hpending).1
  have hlaunched := h.launched
  have hknown := h.known_le
  have hsame : list.known = c + 1 := by
    obtain rfl | ⟨hc, -, -⟩ := hkn
    · omega
    · have hzero : c = 0 := by omega
      subst hzero
      exact (h.fresh (.inr hpending)).1
  have hlength : (list.pages.set c state).length = c + 1 := by
    rw [length_set]
    omega
  obtain ⟨hrecorded, hmem⟩ := hrequest.fresh hsame.symm
  constructor
  · refine ⟨h.first_eq, by dsimp only; omega, ?_, h.last, ?_, ?_, ?_, ?_, ?_⟩
    · dsimp only
      rw [length_cons]
      omega
    · intro link hlink
      cases hlink
      exact ⟨hnext, fun hin => (mem_cons.mp hin).elim hne hnew⟩
    · exact nodup_cons.mpr ⟨hrecorded, h.distinct⟩
    · intro link hlink
      by_cases hempty : list.followed = []
      · rw [hempty] at hlink
        cases hlink
      rw [dropLast_cons_of_ne_nil hempty] at hlink
      obtain rfl | hlink := mem_cons.mp hlink
      · exact hmem hempty
      · exact h.followed link hlink
    · intro _
      rw [hlength]
      exact ⟨Nat.le_refl _, fun _ hnone => by cases hnone⟩
    · intro hfresh
      obtain ⟨hc, hopen⟩ := open_of_set hpending hstate hfresh
      have hone := (h.fresh hopen).1
      omega
  · intro number link hother hold
    have hbound := hold.launched
    refine ⟨by dsimp only; rw [hlength]; omega, hold.own, fun heq => ?_⟩
    dsimp only at heq
    omega

end

theorem CyclicList.complete (hcyclic : Cyclic options fetch first urls)
    (h : CyclicList first urls list) (hpending : list.pages[c]? = some .pending)
    (hrequest : CyclicRequest options first urls list (c + 1) url) :
    CyclicList first urls (completePage options decode fetch list (c + 1) url) ∧
      ∀ number link, number ≠ c + 1 → CyclicRequest options first urls list number link →
        CyclicRequest options first urls (completePage options decode fetch list (c + 1) url) number
          link := by
  have hcases := accept_cases options decode list (c + 1) url (fetch url)
  unfold completePage
  generalize accept options decode list (c + 1) url (fetch url) = result at hcases
  obtain ⟨changed, reply⟩ := result
  have hstate := settled_ne_pending reply
  obtain rfl | ⟨page, hpage, rfl | rfl⟩ := hcases
  · exact h.settle hpending hstate (.inl rfl)
  · obtain ⟨pl, kn, hnumbers, hkn⟩ := acceptNumbers_known options list (c + 1) page
    rw [hnumbers]
    exact h.settle hpending hstate hkn
  obtain ⟨pl, kn, hnumbers, hkn⟩ := acceptNumbers_known options list (c + 1) page
  have hlink : ∃ next ∈ urls, page.next = some next := by
    obtain hown | hown := hrequest.own
    · exact hcyclic.byLink url hown page hpage
    · rw [hown] at hpage
      exact hcyclic.byNumber _ page hpage
  obtain ⟨next, hmem, hnext⟩ := hlink
  rw [hnumbers, hnext]
  obtain hsame | ⟨hle, hne, hnew, hfollow⟩ :=
    acceptNext_some options { list with pagelen := pl, known := kn } (c + 1) url next
  · rw [hsame]
    exact h.settle hpending hstate hkn
  · rw [hfollow]
    exact h.follow hpending hstate hkn hrequest hle hmem hne hnew

theorem CyclicList.bounded (h : CyclicList first urls list) :
    list.pages.length ≤ maxU32 + (urls.length + 1) := by
  have hlaunched := h.launched
  have hknown := h.known_le
  have hsub : list.followed.dropLast.length ≤ urls.length :=
    (subperm_of_subset (h.distinct.sublist (dropLast_sublist _)) h.followed).length_le
  rw [length_dropLast] at hsub
  omega

/-- A server with cyclic links is a world. -/
def cyclicWorld (h : Cyclic options fetch first urls) :
    PageWorld options decode fetch first where
  inv := CyclicList first urls
  serves := CyclicRequest options first urls
  bound := maxU32 + (urls.length + 1)
  start := ⟨rfl, Nat.zero_le 1, Nat.le_add_right_of_le one_le_maxU32, rfl, fun _ h => (by cases h), List.nodup_nil,
    List.forall_mem_nil _, fun h => absurd rfl h, fun _ => ⟨rfl, rfl, rfl⟩⟩
  launch hlist hlaunch := by
    obtain ⟨hnext, hrequest⟩ := hlist.launch h.counted (launchable_lt hlaunch)
    refine ⟨hnext, hrequest, fun number url hold => ⟨?_, hold.own, hold.fresh⟩⟩
    rw [launchPage_pages, List.length_append]
    exact Nat.le_add_right_of_le hold.launched
  complete hlist hpending hserved := hlist.complete h hpending hserved
  bounded hlist := hlist.bounded

end Bbr.Bitbucket

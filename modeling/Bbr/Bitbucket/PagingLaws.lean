import Bbr.Bitbucket.PagingEnds

/-!
# Concurrent and sequential paging

What `listPages` returns for the same pages, what either does with links that form a cycle, and the
result of every run of the coordinator.
-/
namespace Bbr.Bitbucket

open Bbr.Lib List PagedLists

variable {Item Value : Type} {options : PagedListOptions} {decode : Value → Except PageError Item}
  {fetch : Bytes → Except PageError (NumberedPage Value)}

/-! ### One page after the other -/

theorem atLimit_eq (items : Nat) :
    options.limit.any (fun limit => decide (limit ≤ items)) = atLimit options items := by
  unfold atLimit
  cases options.limit with
  | none => rfl
  | some limit => rfl

variable {items : List Item}

theorem cut_of_le (h : ∀ limit, options.limit = some limit → items.length ≤ limit) :
    cut options.limit items = items := by
  unfold cut
  split
  · rfl
  · rename_i limit hlimit
    exact take_of_length_le (h limit hlimit)

theorem below_limit {items limit : Nat} (h : atLimit options items = false)
    (hlimit : options.limit = some limit) : items < limit := by
  unfold atLimit at h
  rw [hlimit] at h
  exact Nat.lt_of_not_le (of_decide_eq_false h)

theorem cut_below (h : atLimit options items.length = false) : cut options.limit items = items :=
  cut_of_le (fun _ hlimit => Nat.le_of_lt (below_limit h hlimit))

theorem atLimit_cut (items : List Item) :
    atLimit options (cut options.limit items).length = atLimit options items.length := by
  unfold atLimit cut
  cases options.limit with
  | none => rfl
  | some limit =>
    rw [length_take]
    exact decide_eq_decide.mpr ⟨fun h => by omega, fun h => by omega⟩

variable {values : List Value} {out : List Item}

theorem appendValues_ok (h : values.mapM decode = .ok items)
    (hout : ∀ limit, options.limit = some limit → out.length ≤ limit) :
    appendValues decode options.limit out values = .ok (cut options.limit (out ++ items)) := by
  induction values generalizing out items with
  | nil =>
    rw [mapM_nil] at h
    cases h
    rw [appendValues, append_nil, cut_of_le hout]
  | cons value values ih =>
    rw [mapM_cons] at h
    cases hvalue : decode value with
    | error reason =>
      rw [hvalue] at h
      cases h
    | ok item =>
      rw [hvalue] at h
      cases hrest : values.mapM decode with
      | error reason =>
        rw [hrest] at h
        cases h
      | ok rest =>
        rw [hrest] at h
        cases h
        rw [appendValues, atLimit_eq]
        cases hlimit : atLimit options out.length with
        | true =>
          obtain ⟨hsome, hreached⟩ := atLimit_some hlimit
          rw [if_pos rfl, cut_append hreached hsome, cut_of_le hout]
        | false =>
          have hmore : ∀ limit, options.limit = some limit → (out ++ [item]).length ≤ limit := by
            intro limit hsome
            have hlt := below_limit hlimit hsome
            rw [length_append, length_singleton]
            omega
          rw [if_neg (by decide), hvalue]
          dsimp only
          rw [ih hrest hmore, append_assoc]
          rfl

/-- Without a limit, the first value that fails to decode fails the page. -/
theorem appendValues_error {reason : PageError} (hlimit : options.limit = none)
    (h : values.mapM decode = .error reason) :
    appendValues decode options.limit out values = .error reason := by
  rw [hlimit]
  induction values generalizing out with
  | nil => cases h
  | cons value values ih =>
    rw [mapM_cons] at h
    unfold appendValues
    cases hvalue : decode value with
    | error found =>
      rw [hvalue] at h
      cases h
      rfl
    | ok item =>
      rw [hvalue] at h
      cases hrest : values.mapM decode with
      | error found =>
        rw [hrest] at h
        cases h
        exact ih hrest
      | ok rest =>
        rw [hrest] at h
        cases h

/-- Under a limit, every value of a page that is answered decodes. -/
def FiniteServer.Decodes (server : FiniteServer options fetch)
    (decode : Value → Except PageError Item) : Prop :=
  options.limit ≠ none →
    ∀ (k : Nat) page, server.raw[k]? = some (.ok page) → ∃ items, page.values.mapM decode = .ok items

theorem listPagesFrom_sequential {server : FiniteServer options fetch}
    (hdecode : server.Decodes decode) {fuel k : Nat} {url : Bytes} {followed : List Bytes} {out : List Item}
    (hfuel : server.raw.length ≤ fuel + k) (hurl : server.raw[k]? = some (fetch url))
    (hok : ∀ t, t < k → ∃ page, server.raw[t]? = some (.ok page))
    (hfollowed : ∀ link ∈ followed, ∃ j, j < k ∧ server.raw[j]? = some (fetch link))
    (hbelow : atLimit options out.length = false) :
    listPagesFrom decode fetch options.limit fuel url followed out =
      some (sequential options ((server.pages decode).drop k) out) := by
  induction fuel generalizing k url followed out with
  | zero =>
    have hlt := (List.getElem?_eq_some_iff.mp hurl).1
    omega
  | succ fuel ih =>
    have hpage : (server.pages decode)[k]? = some (contents decode (fetch url)) := by
      rw [FiniteServer.pages, List.getElem?_map, hurl]
      rfl
    have hdrop : (server.pages decode).drop k =
        contents decode (fetch url) :: (server.pages decode).drop (k + 1) := by
      obtain ⟨hk, hget⟩ := List.getElem?_eq_some_iff.mp hpage
      rw [List.drop_eq_getElem_cons hk, hget]
    rw [hdrop, listPagesFrom]
    cases hreply : fetch url with
    | error reason => rfl
    | ok page =>
      rw [hreply] at hurl
      have hout : ∀ limit, options.limit = some limit → out.length ≤ limit :=
        fun _ hlimit => Nat.le_of_lt (below_limit hbelow hlimit)
      cases hitems : page.values.mapM decode with
      | error reason =>
        have hnone : options.limit = none := by
          by_contra hsome
          obtain ⟨items, hok⟩ := hdecode hsome k page hurl
          rw [hitems] at hok
          cases hok
        have hcontents : contents decode (.ok page) = .error reason := hitems
        dsimp only
        rw [hcontents, sequential, appendValues_error hnone hitems]
      | ok items =>
        have hcontents : contents decode (.ok page) = .ok items := hitems
        rw [hcontents, sequential]
        dsimp only
        rw [appendValues_ok hitems hout]
        dsimp only
        rw [atLimit_eq, atLimit_cut]
        cases hlimit : atLimit options (out ++ items).length with
        | true => rw [if_pos rfl, if_pos rfl]
        | false =>
          rw [if_neg (by decide), if_neg (by decide), cut_below hlimit]
          cases hnext : page.next with
          | none =>
            have hend := server.served.ends k page hurl hnext
            have hempty : (server.pages decode).drop (k + 1) = [] := by
              refine List.drop_eq_nil_of_le ?_
              rw [FiniteServer.pages, List.length_map, hend]
            rw [hempty, sequential]
          | some next =>
            have hserved := server.served.byLink k page next hurl hnext
            have hbehind : k + 1 < server.raw.length := (List.getElem?_eq_some_iff.mp hserved).1
            have hupto : ∀ t, t < k + 1 → ∃ page, server.raw[t]? = some (.ok page) := by
              intro t ht
              obtain hbefore | heq := Nat.lt_succ_iff_lt_or_eq.mp ht
              · exact hok t hbefore
              · exact ⟨page, by rw [heq, hurl]⟩
            have hcycle : ∀ j, j ≤ k → server.raw[j]? = some (fetch next) → False := fun j hj hsame =>
              server.served.no_cycle hj (hserved.trans hsame.symm) hbehind
                (fun t _ ht => hupto t (Nat.lt_succ_of_le ht))
            have hself : (url == next) = false := by
              rw [beq_eq_false_iff_ne]
              rintro rfl
              exact hcycle k (Nat.le_refl k) (by rw [hreply, hurl])
            have hnew : followed.contains next = false := by
              rw [List.contains_eq_mem, decide_eq_false_iff_not]
              intro hmem
              obtain ⟨j, hj, hsame⟩ := hfollowed next hmem
              exact hcycle j (Nat.le_of_lt hj) hsame
            dsimp only
            rw [hself, hnew]
            refine ih (by omega) hserved hupto ?_ hlimit
            intro link hlink
            obtain rfl | hlink := List.mem_cons.mp hlink
            · exact ⟨k, Nat.lt_succ_self k, by rw [hreply, hurl]⟩
            · obtain ⟨j, hj, hsame⟩ := hfollowed link hlink
              exact ⟨j, Nat.lt_succ_of_lt hj, hsame⟩

variable {fuel : Nat} {url : Bytes}

theorem listPages_sequential {server : FiniteServer options fetch}
    (hdecode : server.Decodes decode) (hlimit : options.limit ≠ some 0)
    (hfuel : server.raw.length ≤ fuel) (hurl : server.raw[0]? = some (fetch url)) :
    listPages decode fetch options.limit fuel url =
      some (sequential options (server.pages decode) []) := by
  rw [listPages, if_neg hlimit]
  exact @listPagesFrom_sequential _ _ _ _ _ server hdecode fuel 0 url [] [] hfuel hurl
    (fun t ht => absurd ht (Nat.not_lt_zero t))
    (forall_mem_nil _) (atLimit_zero hlimit)

/-! ### Links that form a cycle -/

/-- The pages from `number` on, up to the last one. -/
def upTo (last : Option Nat) (number : Nat) (pages : List (PageState Item)) : List (PageState Item) :=
  match last with
  | none => pages
  | some last => pages.take (last + 1 - number)

theorem upTo_cons {last : Option Nat} {number : Nat} (h : pastLast last number = false)
    (page : PageState Item) (pages : List (PageState Item)) :
    upTo last number (page :: pages) = page :: upTo last (number + 1) pages := by
  unfold upTo
  cases last with
  | none => rfl
  | some last =>
    have hle : ¬last < number := of_decide_eq_false h
    have hstep : last + 1 - number = last + 1 - (number + 1) + 1 := by omega
    dsimp only
    rw [hstep, take_succ_cons]

/-- How the pages of a List end the prefix: at its last page, or with the items that the limit asks
for. -/
theorem prefixList_items {last : Option Nat} {pages : List (PageState Item)} {number items : Nat} :
    (∀ n, prefixList options last pages number items = .through n →
        last ≠ none ∧ n ≤ items + ((upTo last number pages).flatMap doneItems).length) ∧
      ∀ n, prefixList options last pages number items = .full n →
        atLimit options n = true ∧ n ≤ items + ((upTo last number pages).flatMap doneItems).length := by
  induction pages generalizing number items with
  | nil =>
    unfold prefixList
    cases hpast : pastLast last number with
    | true =>
      refine ⟨fun n h => ?_, fun n h => (by cases h)⟩
      cases h
      refine ⟨?_, Nat.le_add_right _ _⟩
      rintro rfl
      cases hpast
    | false =>
      exact ⟨fun n h => (by cases h), fun n h => (by cases h)⟩
  | cons page pages ih =>
    unfold prefixList
    cases hpast : pastLast last number with
    | true =>
      refine ⟨fun n h => ?_, fun n h => (by cases h)⟩
      cases h
      refine ⟨?_, Nat.le_add_right _ _⟩
      rintro rfl
      cases hpast
    | false =>
      rw [if_neg (by decide), upTo_cons hpast, flatMap_cons, length_append]
      cases page with
      | pending | failed reason => exact ⟨fun n h => (by cases h), fun n h => (by cases h)⟩
      | done found =>
        dsimp only [doneItems]
        cases hlimit : atLimit options (items + found.length) with
        | true =>
          refine ⟨fun n h => (by cases h), fun n h => ?_⟩
          cases h
          exact ⟨hlimit, by omega⟩
        | false =>
          obtain ⟨hthrough, hfull⟩ := @ih (number + 1) (items + found.length)
          exact ⟨fun n h => ⟨(hthrough n h).1, by have := (hthrough n h).2; omega⟩,
            fun n h => ⟨(hfull n h).1, by have := (hfull n h).2; omega⟩⟩

theorem shown_upTo (list : PagedList Item) :
    shown list = (upTo list.last 1 list.pages).flatMap doneItems := by
  unfold shown withinLast upTo
  cases list.last with
  | none => rfl
  | some last => rfl

/-- A List without a last page is passed only when the limit is reached. -/
theorem prefixFrom_endless {lists : List (PagedList Item)} {index items n : Nat}
    (h : prefixFrom options lists index items = (n, none))
    (hendless : ∃ list ∈ lists, list.last = none) :
    atLimit options n = true ∧ n ≤ items + (lists.flatMap shown).length := by
  induction lists generalizing index items with
  | nil =>
    obtain ⟨list, hmem, -⟩ := hendless
    cases hmem
  | cons list lists ih =>
    obtain ⟨hthrough, hfull⟩ := @prefixList_items Item options list.last list.pages 1 items
    rw [← shown_upTo] at hthrough hfull
    rw [prefixFrom] at h
    rw [flatMap_cons, length_append]
    cases hstop : prefixList options list.last list.pages 1 items with
    | through reached =>
      obtain ⟨hlast, hle⟩ := hthrough reached hstop
      rw [hstop] at h
      have hrest : ∃ list ∈ lists, list.last = none := by
        obtain ⟨found, hmem, hnone⟩ := hendless
        obtain rfl | hmem := mem_cons.mp hmem
        · exact absurd hnone hlast
        · exact ⟨found, hmem, hnone⟩
      obtain ⟨hlimit, hbound⟩ := ih h hrest
      exact ⟨hlimit, by omega⟩
    | missing reached number =>
      rw [hstop] at h
      cases h
    | full reached =>
      obtain ⟨hlimit, hle⟩ := hfull reached hstop
      rw [hstop] at h
      cases h
      exact ⟨hlimit, by omega⟩

variable {state : PagedLists Item}

/-- A List without a last page yields an error, or as many items as the limit says. -/
theorem finish_endless (hendless : ∃ list ∈ state.lists, list.last = none)
    (h : state.finish options = .ok items) : options.limit = some items.length := by
  unfold finish merged at h
  cases hmerged : prefixFrom options state.lists 0 0 with
  | mk n missing =>
    rw [hmerged] at h
    cases missing with
    | some position =>
      dsimp only at h
      split at h
      · cases h
      · cases h
    | none =>
      obtain ⟨hlimit, hle⟩ := prefixFrom_endless hmerged hendless
      obtain ⟨hsome, hreached⟩ := atLimit_some hlimit
      obtain ⟨limit, hcase⟩ := Option.ne_none_iff_exists'.mp hsome
      have hbound := hreached limit hcase
      rw [hcase] at h ⊢
      dsimp only at h
      cases h
      rw [length_take, Nat.min_eq_right hbound]
      change some limit = some (min limit (state.lists.flatMap shown).length)
      rw [Nat.min_eq_left (by omega)]

theorem appendValues_le (h : appendValues decode options.limit out values = .ok items)
    (hout : ∀ limit, options.limit = some limit → out.length ≤ limit) :
    ∀ limit, options.limit = some limit → items.length ≤ limit := by
  induction values generalizing out with
  | nil =>
    cases h
    exact hout
  | cons value values ih =>
    rw [appendValues, atLimit_eq] at h
    cases hlimit : atLimit options out.length with
    | true =>
      rw [hlimit, if_pos rfl] at h
      cases h
      exact hout
    | false =>
      rw [hlimit, if_neg (by decide)] at h
      cases hvalue : decode value with
      | error reason =>
        rw [hvalue] at h
        cases h
      | ok item =>
        rw [hvalue] at h
        refine ih h (fun limit hsome => ?_)
        have hlt := below_limit hlimit hsome
        rw [length_append, length_singleton]
        omega

variable {urls : List Bytes}

/-- Over cyclic links, `listPages` ends with an error, or with as many items as the limit says. -/
theorem listPagesFrom_cyclic {first : Bytes} (hcyclic : Cyclic options fetch first urls)
    {followed : List Bytes} (hfuel : urls.length + 2 ≤ fuel + followed.length)
    (hurl : url ∈ pageAt options first 1 :: urls) (hnew : url ∉ followed)
    (hdistinct : followed.Nodup)
    (hfollowed : ∀ link ∈ followed, link ∈ pageAt options first 1 :: urls)
    (hout : ∀ limit, options.limit = some limit → out.length ≤ limit) :
    ∃ result, listPagesFrom decode fetch options.limit fuel url followed out = some result ∧
      ∀ items, result = .ok items → options.limit = some items.length := by
  have hrecord : (url :: followed).Nodup := nodup_cons.mpr ⟨hnew, hdistinct⟩
  have hknown : ∀ link ∈ url :: followed, link ∈ pageAt options first 1 :: urls := by
    intro link hlink
    obtain rfl | hlink := mem_cons.mp hlink
    · exact hurl
    · exact hfollowed link hlink
  have hbound := (subperm_of_subset hrecord hknown).length_le
  rw [length_cons, length_cons] at hbound
  induction fuel generalizing url followed out with
  | zero => omega
  | succ fuel ih =>
    rw [listPagesFrom]
    cases hreply : fetch url with
    | error reason => exact ⟨_, rfl, fun items h => (by cases h)⟩
    | ok page =>
      dsimp only
      cases happend : appendValues decode options.limit out page.values with
      | error reason => exact ⟨_, rfl, fun items h => (by cases h)⟩
      | ok reached =>
        have hreached := appendValues_le happend hout
        dsimp only
        rw [atLimit_eq]
        cases hlimit : atLimit options reached.length with
        | true =>
          refine ⟨_, if_pos rfl, fun items h => ?_⟩
          cases h
          obtain ⟨hsome, hle⟩ := atLimit_some hlimit
          obtain ⟨limit, hcase⟩ := Option.ne_none_iff_exists'.mp hsome
          rw [hcase, Nat.le_antisymm (hreached limit hcase) (hle limit hcase)]
        | false =>
          have hlink : ∃ next ∈ urls, page.next = some next := by
            obtain rfl | hmem := mem_cons.mp hurl
            · exact hcyclic.byNumber 1 page hreply
            · exact hcyclic.byLink url hmem page hreply
          obtain ⟨next, hmem, hnext⟩ := hlink
          rw [if_neg (by decide), hnext]
          dsimp only
          split
          · exact ⟨_, rfl, fun items h => (by cases h)⟩
          rename_i hfresh
          rw [Bool.or_eq_true, not_or, beq_iff_eq, contains_eq_mem, decide_eq_true_eq] at hfresh
          have hnextNew : next ∉ url :: followed := fun hin =>
            (mem_cons.mp hin).elim (fun heq => hfresh.1 heq.symm) hfresh.2
          have hnextUrl : next ∈ pageAt options first 1 :: urls := mem_cons_of_mem _ hmem
          have hnextRecord : (next :: url :: followed).Nodup := nodup_cons.mpr ⟨hnextNew, hrecord⟩
          have hnextKnown : ∀ link ∈ next :: url :: followed, link ∈ pageAt options first 1 :: urls := by
            intro link hlink
            obtain rfl | hlink := mem_cons.mp hlink
            · exact hnextUrl
            · exact hknown link hlink
          refine ih ?_ hnextUrl hnextNew hrecord hknown hreached hnextRecord hnextKnown ?_
          · rw [length_cons]
            omega
          · have hle := (subperm_of_subset hnextRecord hnextKnown).length_le
            exact hle

theorem listPages_cyclic {first : Bytes} (hcyclic : Cyclic options fetch first urls)
    (hlimit : options.limit ≠ some 0) (hfuel : urls.length + 2 ≤ fuel) :
    ∃ result, listPages decode fetch options.limit fuel (pageAt options first 1) = some result ∧
      ∀ items, result = .ok items → options.limit = some items.length := by
  rw [listPages, if_neg hlimit]
  exact listPagesFrom_cyclic hcyclic hfuel mem_cons_self not_mem_nil nodup_nil
    (forall_mem_nil _) (fun limit _ => Nat.zero_le limit)

/-! ### Every run -/

/-- A List of pages: finitely many, or without an end. -/
inductive Server (options : PagedListOptions)
    (fetch : Bytes → Except PageError (NumberedPage Value)) where
  | finite (server : FiniteServer options fetch)
  | cyclic (first : Bytes) (urls : List Bytes) (cycles : Cyclic options fetch first urls)

def Server.first : Server options fetch → Bytes
  | .finite server => server.first
  | .cyclic first _ _ => first

/-- A bound on the pages that are fetched. -/
def Server.bound : Server options fetch → Nat
  | .finite server => server.raw.length
  | .cyclic _ urls _ => maxU32 + (urls.length + 1)

def totalBound : List (Server options fetch) → Nat
  | [] => 0
  | server :: servers => server.bound + totalBound servers

def Server.world (server : Server options fetch) (decode : Value → Except PageError Item) :
    Sigma (PageWorld options decode fetch) :=
  match server with
  | .finite server => ⟨server.first, servedWorld server.served⟩
  | .cyclic first _ cycles => ⟨first, cyclicWorld cycles⟩

/-- The Lists of a state that is reached from the first pages of the servers. -/
def Reached (decode : Value → Except PageError Item) (servers : List (Server options fetch))
    (events : List PagingEvent) (state : PagedLists Item) : Prop :=
  Run (pagingStep options decode fetch) (PagedLists.start options (servers.map Server.first)) events
    state

theorem world_first (server : Server options fetch) (decode : Value → Except PageError Item) :
    (server.world decode).1 = server.first := by
  cases server <;> rfl

theorem world_bound (servers : List (Server options fetch)) (decode : Value → Except PageError Item) :
    boundCount (servers.map (fun server => server.world decode)) = totalBound servers := by
  induction servers with
  | nil => rfl
  | cons server servers ih =>
    rw [map_cons, boundCount, totalBound, ih]
    cases server <;> rfl

variable {events : List PagingEvent} {servers : List (Server options fetch)}

theorem Reached.running (h : Reached decode servers events state) :
    Running (servers.map (fun server => server.world decode)) state ∧
      events.length ≤ 2 * totalBound servers := by
  have hfirsts : (servers.map (fun server => server.world decode)).map Sigma.fst =
      servers.map Server.first := by
    rw [map_map]
    exact map_congr_left (fun server _ => world_first server decode)
  rw [← world_bound servers decode]
  refine Running.run ?_
  rw [hfirsts]
  exact h

theorem Reached.endedLists {servers : List (FiniteServer options fetch)}
    (h : Reached decode (servers.map Server.finite) events state)
    (hended : state.ended options = true) : List.Forall₂ (EndedList decode) servers state.lists := by
  have hsound := h.running.1.sound
  have hactive : state.active = [] := by
    exact isEmpty_iff.mp (Bool.and_eq_true_iff.mp hended).2
  have hidle : ∀ list ∈ state.lists, ∀ k : Nat, list.pages[k]? ≠ some .pending := by
    intro list hmem k hpending
    obtain ⟨i, hi⟩ := getElem?_of_mem hmem
    obtain ⟨slot, hslot, -⟩ := hsound.requested i list k hi hpending
    rw [hactive] at hslot
    exact absurd hslot not_mem_nil
  have hlists := hsound.lists
  rw [map_map, forall₂_map_left_iff] at hlists
  clear h hsound
  generalize state.lists = lists at hlists hidle
  induction hlists with
  | nil => exact .nil
  | cons hlist _ ih =>
    exact .cons ⟨hlist, hidle _ mem_cons_self⟩
      (ih (fun list hmem => hidle list (mem_cons_of_mem _ hmem)))

def Server.Endless : Server options fetch → Prop
  | .finite _ => False
  | .cyclic _ _ _ => True

theorem Reached.endless (h : Reached decode servers events state)
    (hendless : ∃ server ∈ servers, server.Endless) : ∃ list ∈ state.lists, list.last = none := by
  have hlists := h.running.1.sound.lists
  rw [forall₂_map_left_iff] at hlists
  clear h
  generalize state.lists = lists at hlists
  induction hlists with
  | nil =>
    obtain ⟨server, hmem, -⟩ := hendless
    cases hmem
  | @cons server list servers lists hlist _ ih =>
    obtain ⟨found, hmem, hfound⟩ := hendless
    obtain rfl | hmem := mem_cons.mp hmem
    · cases found with
      | finite server => exact absurd hfound id
      | cyclic first urls cycles => exact ⟨list, mem_cons_self, CyclicList.last hlist⟩
    · obtain ⟨other, hother, hlast⟩ := ih ⟨found, hmem, hfound⟩
      exact ⟨other, mem_cons_of_mem _ hother, hlast⟩

theorem answersAtOnce_none {firsts : List Bytes}
    (h : (answersAtOnce options firsts : Option (Except PageError (List Item))) = none) :
    0 < options.concurrency ∧ options.limit ≠ some 0 := by
  unfold answersAtOnce at h
  split at h
  · cases h
  rename_i hguard
  split at h
  · cases h
  · rename_i hlimit
    exact ⟨Nat.pos_of_ne_zero (fun hzero => hguard (.inr (.inr hzero))), hlimit⟩

theorem Served.first_url {first : Bytes} {pagelen : Nat}
    {raw : List (Except PageError (NumberedPage Value))} (h : Served options fetch first pagelen raw) :
    raw[0]? = some (fetch (pageAt options first 1)) := by
  obtain ⟨reply, hreply⟩ : ∃ reply, raw[0]? = some reply := ⟨_, getElem?_eq_getElem h.length_pos⟩
  rw [hreply, h.byNumber 0 reply hreply]

/-- Every run of the coordinator, whatever the order of completions: it is never wider than
`concurrency`, it ends, and at its end it returns the pages of the Lists one after the other. -/
theorem concurrentPaging {servers : List (Server options fetch)} {events : List PagingEvent}
    {state : PagedLists Item}
    (hstart : (answersAtOnce options (servers.map Server.first) :
      Option (Except PageError (List Item))) = none)
    (h : Reached decode servers events state) :
    state.active.length ≤ options.concurrency ∧
    (∀ next, state.step options decode fetch .inline = some next →
      state.active.length < options.concurrency) ∧
    events.length ≤ 2 * totalBound servers ∧
    (state.ended options = false → ∃ event next, state.step options decode fetch event = some next) ∧
    (∀ finite : List (FiniteServer options fetch), servers = finite.map Server.finite →
      state.ended options = true →
        Merged options (finite.map (fun server => server.pages decode)) (state.finish options)) ∧
    (∀ server : FiniteServer options fetch, servers = [.finite server] → state.ended options = true →
      server.Decodes decode → ∀ fuel, server.raw.length ≤ fuel →
        listPages decode fetch options.limit fuel (pageAt options server.first 1) =
          some (state.finish options)) ∧
    ((∃ server ∈ servers, server.Endless) →
      ∀ items, state.finish options = .ok items → options.limit = some items.length) ∧
    (∀ first urls, Cyclic options fetch first urls → ∀ fuel, urls.length + 2 ≤ fuel →
      ∃ result, listPages decode fetch options.limit fuel (pageAt options first 1) = some result ∧
        ∀ items, result = .ok items → options.limit = some items.length) := by
  obtain ⟨hconcurrency, hlimit⟩ := answersAtOnce_none hstart
  obtain ⟨hrunning, hlength⟩ := h.running
  have hmerged : ∀ finite : List (FiniteServer options fetch), servers = finite.map Server.finite →
      state.ended options = true →
        Merged options (finite.map (fun server => server.pages decode)) (state.finish options) := by
    rintro finite rfl hended
    refine finish_merged (h.endedLists hended) hlimit ?_
    exact Option.isNone_iff_eq_none.mp (Bool.and_eq_true_iff.mp hended).1
  refine ⟨hrunning.width, ?_, hlength, exists_step hconcurrency, hmerged, ?_, ?_, ?_⟩
  · intro next hstep
    obtain ⟨-, -, -, hne, -⟩ | ⟨-, -, -, -, -, hroom, -⟩ | ⟨-, -, hne, -⟩ := step_cases hstep
    · exact absurd rfl hne
    · exact hroom
    · exact absurd rfl hne
  · rintro server rfl hended hdecode fuel hfuel
    rw [listPages_sequential hdecode hlimit hfuel server.served.first_url]
    obtain hsame | ⟨-, pages, hmem, reason, hpages, hfinish⟩ := hmerged [server] rfl hended
    · rw [hsame, map_singleton, flatten_singleton]
    · rw [map_singleton, mem_singleton] at hmem
      rw [hfinish, ← hpages, hmem]
  · exact fun hendless items hitems => finish_endless (h.endless hendless) hitems
  · exact fun first urls hcyclic fuel hfuel => listPages_cyclic hcyclic hlimit hfuel

/-! ### Runs over a few pages -/

/-- `a?` -/
def firstA : Bytes := [0x61, 0x3f]

/-- `b?` -/
def firstB : Bytes := [0x62, 0x3f]

/-- A link that addresses no page by number. -/
def cursor : Bytes := [0x63]

def secondA : Bytes := numberedUrl firstA 2

def answers (pages : List (Bytes × Except PageError (NumberedPage Nat))) (url : Bytes) :
    Except PageError (NumberedPage Nat) :=
  ((pages.find? (fun page => page.1 == url)).map Prod.snd).getD (.error (.api .notFound))

/-- A value of zero does not decode. -/
def nonzero (value : Nat) : Except PageError Nat :=
  if value = 0 then .error malformed else .ok value

def pairOptions : PagedListOptions := { pagelen := 2, concurrency := 2 }

def pairAnswers : Bytes → Except PageError (NumberedPage Nat) :=
  answers [(firstA, .ok { values := [1, 2], next := some secondA, size := some 3 }),
    (secondA, .ok { values := [3] }), (firstB, .ok { values := [4] })]

def pairPages : List (Except PageError (NumberedPage Nat)) :=
  [.ok { values := [1, 2], next := some secondA, size := some 3 }, .ok { values := [3] }]

theorem pairPages_cases {k : Nat} {reply : Except PageError (NumberedPage Nat)}
    (h : pairPages[k]? = some reply) :
    (k = 0 ∧ reply = .ok { values := [1, 2], next := some secondA, size := some 3 }) ∨
      (k = 1 ∧ reply = .ok { values := [3] }) := by
  match k with
  | 0 => exact .inl ⟨rfl, (Option.some.inj h).symm⟩
  | 1 => exact .inr ⟨rfl, (Option.some.inj h).symm⟩
  | k + 2 => cases h

theorem pair_served : Served pairOptions pairAnswers firstA 2 pairPages where
  nonempty := by decide
  counted := by decide
  fits := by decide
  positive := by decide
  requested := by decide
  byNumber k reply hk := by
    obtain ⟨rfl, rfl⟩ | ⟨rfl, rfl⟩ := pairPages_cases hk
    · decide
    · decide
  byLink k page next hk hnext := by
    obtain ⟨rfl, hpage⟩ | ⟨rfl, hpage⟩ := pairPages_cases hk
    · cases hpage
      cases hnext
      decide
    · cases hpage
      cases hnext
  ends k page hk hnext := by
    obtain ⟨rfl, hpage⟩ | ⟨rfl, hpage⟩ := pairPages_cases hk
    · cases hpage
      cases hnext
    · rfl
  pageField k page hk := by
    obtain ⟨rfl, hpage⟩ | ⟨rfl, hpage⟩ := pairPages_cases hk
    · cases hpage
      rfl
    · cases hpage
      rfl
  pagelens k page hk := by
    obtain ⟨rfl, hpage⟩ | ⟨rfl, hpage⟩ := pairPages_cases hk
    · cases hpage
      rfl
    · cases hpage
      rfl
  firstPagelen page hk := by
    cases hk
    rfl
  size page size hk hsize := by
    cases hk
    cases hsize
    decide
  numbered page next size hk hnext hsize hnumbered := by
    intro k found link hfound hlink
    obtain ⟨rfl, hpage⟩ | ⟨rfl, hpage⟩ := pairPages_cases hfound
    · cases hpage
      cases hlink
      decide
    · cases hpage
      cases hlink

theorem singlePage_cases {k : Nat} {reply : Except PageError (NumberedPage Nat)}
    (h : [.ok { values := [4] }][k]? = some reply) : k = 0 ∧ reply = .ok { values := [4] } := by
  cases k with
  | zero => exact ⟨rfl, (Option.some.inj h).symm⟩
  | succ k => cases h

theorem single_served : Served pairOptions pairAnswers firstB 2 [.ok { values := [4] }] where
  nonempty := by decide
  counted := by decide
  fits := by decide
  positive := by decide
  requested := by decide
  byNumber k reply hk := by
    obtain ⟨rfl, rfl⟩ := singlePage_cases hk
    decide
  byLink k page next hk hnext := by
    obtain ⟨rfl, hpage⟩ := singlePage_cases hk
    cases hpage
    cases hnext
  ends k page hk _ := by
    obtain ⟨rfl, -⟩ := singlePage_cases hk
    rfl
  pageField k page hk := by
    obtain ⟨rfl, hpage⟩ := singlePage_cases hk
    cases hpage
    rfl
  pagelens k page hk := by
    obtain ⟨rfl, hpage⟩ := singlePage_cases hk
    cases hpage
    rfl
  firstPagelen page hk := by
    cases hk
    rfl
  size page size hk hsize := by
    cases hk
    cases hsize
  numbered page next size hk hnext := by
    cases hk
    cases hnext

def pairServer : FiniteServer pairOptions pairAnswers := ⟨firstA, 2, pairPages, pair_served⟩

def singleServer : FiniteServer pairOptions pairAnswers := ⟨firstB, 2, _, single_served⟩

/-- One List alone, and two at once, of which the second answers first. -/
theorem concurrentPaging_pair :
    (∃ state : PagedLists Nat, state.ended pairOptions = true ∧
      state.finish pairOptions = .ok [1, 2, 3] ∧
      listPages nonzero pairAnswers none 2 firstA = some (state.finish pairOptions)) ∧
    ∃ state : PagedLists Nat, (start pairOptions [firstA, firstB]).steps pairOptions nonzero pairAnswers
        [.launch, .launch, .complete 1, .complete 0, .launch, .complete 0] = some state ∧
      state.ended pairOptions = true ∧ state.finish pairOptions = .ok [1, 2, 3, 4] ∧
      Merged pairOptions ([pairServer, singleServer].map (fun server => server.pages nonzero))
        (state.finish pairOptions) := by
  constructor
  · have hrun : ((start pairOptions [firstA]).steps pairOptions nonzero pairAnswers
        [.launch, .complete 0, .launch, .complete 0]).map
          (fun state => (state.ended pairOptions, state.finish pairOptions)) =
            some (true, .ok [1, 2, 3]) := by decide
    obtain ⟨state, hsteps, houtcome⟩ := Option.map_eq_some_iff.mp hrun
    rw [Prod.mk.injEq] at houtcome
    obtain ⟨-, -, -, -, -, hsame, -⟩ :=
      @concurrentPaging _ _ _ nonzero _ [.finite pairServer] _ state (by decide)
        (run_steps.mpr hsteps)
    exact ⟨state, houtcome.1, houtcome.2,
      hsame pairServer rfl houtcome.1 (fun hlimit => absurd rfl hlimit) 2 (Nat.le_refl 2)⟩
  · have hrun : ((start pairOptions [firstA, firstB]).steps pairOptions nonzero pairAnswers
        [.launch, .launch, .complete 1, .complete 0, .launch, .complete 0]).map
          (fun state => (state.ended pairOptions, state.finish pairOptions)) =
            some (true, .ok [1, 2, 3, 4]) := by decide
    obtain ⟨state, hsteps, houtcome⟩ := Option.map_eq_some_iff.mp hrun
    rw [Prod.mk.injEq] at houtcome
    obtain ⟨-, -, -, -, hmerged, -⟩ :=
      @concurrentPaging _ _ _ nonzero _ [.finite pairServer, .finite singleServer] _ state (by decide)
        (run_steps.mpr hsteps)
    exact ⟨state, hsteps, houtcome.1, houtcome.2,
      hmerged [pairServer, singleServer] rfl houtcome.1⟩

def laterFailure : Bytes → Except PageError (NumberedPage Nat) :=
  answers [(firstA, .ok { values := [1], next := some secondA }),
    (secondA, .error (.api .serverError)), (firstB, .error (.api .forbidden))]

def opaqueLink : Bytes → Except PageError (NumberedPage Nat) :=
  answers [(firstA, .ok { values := [1, 2], next := some secondA, size := some 5 }),
    (secondA, .ok { values := [3, 4], next := some cursor }),
    (numberedUrl firstA 3, .ok { values := [5] }), (cursor, .ok { values := [5] })]

def laterPagelen : Bytes → Except PageError (NumberedPage Nat) :=
  answers [(firstA, .ok { values := [1], next := some secondA }),
    (secondA, .ok { values := [2], pagelen := some 1 })]

def longPage : Bytes → Except PageError (NumberedPage Nat) :=
  answers [(firstA, .ok { values := [1, 2, 3], pagelen := some 3 })]

def zeroBehind : Bytes → Except PageError (NumberedPage Nat) :=
  answers [(firstA, .ok { values := [1, 0] })]

def ownLink : Bytes → Except PageError (NumberedPage Nat) :=
  answers [(firstA, .ok { values := [1], next := some firstA })]

/-- Where a run returns something else than the pages one after the other: without a limit a later
List fails before the page that is needed first; page 1 counts numbered pages and a link is of
another kind; page 1 leaves out a page length that page 2 reports, or reports one above the request;
a value behind the limit does not decode. A cycle may reach the limit. -/
theorem concurrentPaging_differs :
    (listPagesConcurrent pairOptions nonzero laterFailure [firstA, firstB]
        [.launch, .launch, .complete 1, .complete 0] = some (.error (.api .forbidden)) ∧
      sequential pairOptions
        ([firstA, secondA, firstB].map (fun url => contents nonzero (laterFailure url))) [] =
          .error (.api .serverError)) ∧
    (listPagesConcurrent pairOptions nonzero opaqueLink [firstA]
        [.launch, .complete 0, .launch, .launch, .complete 1, .complete 0] =
          some (.error malformed) ∧
      listPages nonzero opaqueLink none 3 firstA = some (.ok [1, 2, 3, 4, 5])) ∧
    (listPagesConcurrent pairOptions nonzero laterPagelen [firstA]
        [.launch, .complete 0, .launch, .complete 0] = some (.error malformed) ∧
      listPages nonzero laterPagelen none 2 firstA = some (.ok [1, 2])) ∧
    (listPagesConcurrent pairOptions nonzero longPage [firstA] [.launch, .complete 0] =
        some (.error malformed) ∧
      listPages nonzero longPage none 1 firstA = some (.ok [1, 2, 3])) ∧
    (listPagesConcurrent { pairOptions with limit := some 1 } nonzero zeroBehind [firstA]
        [.launch, .complete 0] = some (.error malformed) ∧
      listPages nonzero zeroBehind (some 1) 1 firstA = some (.ok [1])) ∧
    listPages nonzero ownLink (some 1) 1 firstA = some (.ok [1]) := by
  decide

end Bbr.Bitbucket

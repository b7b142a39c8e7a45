import Bbr.Bitbucket.Paging
import Bbr.Lib.Pairings
import Bbr.Lib.Runs
import Mathlib.Algebra.Order.BigOperators.Group.List
import Mathlib.Data.List.Nodup

/-!
# Runs of the paging coordinator

What each List keeps, and what its requests rely on, is a `PageWorld`. Every step of the coordinator
keeps the Lists of their worlds, runs at most `concurrency` requests at a time, and comes closer to
the end.
-/
namespace Bbr.Bitbucket

open Bbr.Lib List PagedLists

variable {Item Value : Type} (options : PagedListOptions) (decode : Value → Except PageError Item)
  (fetch : Bytes → Except PageError (NumberedPage Value))

/-- An invariant of a List and of its requests, with a bound on the pages that it launches. -/
structure PageWorld (first : Bytes) where
  inv : PagedList Item → Prop
  serves : PagedList Item → Nat → Bytes → Prop
  bound : Nat
  start : inv { first := first }
  launch : ∀ {list}, inv list → launchable options list = true →
    inv (launchPage options list) ∧
      serves (launchPage options list) (list.pages.length + 1) (pageUrl options list) ∧
        ∀ number url, serves list number url → serves (launchPage options list) number url
  complete : ∀ {list number url}, inv list → list.pages[number]? = some .pending →
    serves list (number + 1) url →
      inv (completePage options decode fetch list (number + 1) url) ∧
        ∀ other link, other ≠ number + 1 → serves list other link →
          serves (completePage options decode fetch list (number + 1) url) other link
  bounded : ∀ {list}, inv list → list.pages.length ≤ bound

abbrev PageWorlds := List (Sigma (PageWorld options decode fetch))

variable {options decode fetch} {worlds : PageWorlds options decode fetch}
  {state next : PagedLists Item} {list : PagedList Item} {slot : PagedLists.Slot} {position : PagePosition}

/-- The Lists keep their worlds, and pending pages are the active requests. -/
structure Sound (worlds : PageWorlds options decode fetch) (state : PagedLists Item) : Prop where
  lists : List.Forall₂ (fun (world : Sigma (PageWorld options decode fetch)) list => world.2.inv list)
    worlds state.lists
  serves : ∀ slot ∈ state.active, ∃ world list k, worlds[slot.position.list]? = some world ∧
    state.lists[slot.position.list]? = some list ∧ slot.position.number = k + 1 ∧
      list.pages[k]? = some .pending ∧ world.2.serves list (k + 1) slot.url
  distinct : (state.active.map PagedLists.Slot.position).Nodup
  requested : ∀ i list k, state.lists[i]? = some list → list.pages[k]? = some .pending →
    ∃ slot ∈ state.active, slot.position = ⟨i, k + 1⟩

variable {lists : List (PagedList Item)} {index : Nat}

theorem findPage_some {failure : Option PagePosition} {firstPages : Bool}
    (h : findPage options failure firstPages lists index = some position) :
    ∃ i list, lists[i]? = some list ∧ position = ⟨index + i, list.pages.length + 1⟩ ∧
      launchable options list = true ∧ failure.all (fun failed => position.before failed) = true := by
  induction lists generalizing index with
  | nil => cases h
  | cons list lists ih =>
    rw [findPage] at h
    split at h
    · rename_i hfound
      rw [Bool.and_eq_true, Bool.and_eq_true] at hfound
      cases h
      exact ⟨0, list, rfl, rfl, hfound.1.2, hfound.2⟩
    · obtain ⟨i, found, hi, hposition, hrest⟩ := ih h
      refine ⟨i + 1, found, hi, ?_, hrest⟩
      rw [hposition, Nat.add_assoc, Nat.add_comm 1 i]

theorem nextPage_some (h : state.nextPage options = some position) :
    ∃ list, state.lists[position.list]? = some list ∧ position.number = list.pages.length + 1 ∧
      launchable options list = true := by
  have hfind : ∃ failure firstPages,
      findPage options failure firstPages state.lists 0 = some position := by
    unfold nextPage at h
    split at h
    · cases h
    dsimp only at h
    split at h
    · cases h
    · obtain h | ⟨-, h⟩ := Option.or_eq_some_iff.mp h
      · exact ⟨_, _, h⟩
      · exact ⟨_, _, h⟩
  obtain ⟨failure, firstPages, hfind⟩ := hfind
  obtain ⟨i, list, hi, rfl, hlaunch, -⟩ := findPage_some hfind
  exact ⟨list, by rw [Nat.zero_add]; exact hi, rfl, hlaunch⟩

/-! ### Steps -/

theorem Sound.start : Sound worlds (start options (worlds.map Sigma.fst)) where
  lists := by
    induction worlds with
    | nil => exact .nil
    | cons world worlds ih => exact .cons world.2.start ih
  serves slot hslot := absurd hslot not_mem_nil
  distinct := nodup_nil
  requested i list k hlist hpending := by
    obtain ⟨world, -, rfl⟩ := mem_map.mp (mem_of_getElem? hlist)
    cases hpending

theorem take_some (h : state.take options position = some (slot, next)) :
    ∃ list, state.lists[position.list]? = some list ∧ slot = ⟨position, pageUrl options list⟩ ∧
        next = { state with lists := state.lists.set position.list (launchPage options list) } := by
  unfold PagedLists.take at h
  split at h
  · cases h
  · rename_i list hlist
    cases h
    exact ⟨list, hlist, rfl, rfl⟩

theorem launchPage_pages (list : PagedList Item) :
    (launchPage options list).pages = list.pages ++ [.pending] := rfl

theorem launchPage_pending {k : Nat} : (launchPage options list).pages[k]? = some .pending ↔
      list.pages[k]? = some .pending ∨ k = list.pages.length := by
  rw [launchPage_pages]
  obtain hlt | heq | hgt := Nat.lt_trichotomy k list.pages.length
  · rw [getElem?_append_left hlt]
    exact ⟨.inl, fun h => h.resolve_right (Nat.ne_of_lt hlt)⟩
  · rw [heq, getElem?_concat_length]
    exact ⟨fun _ => .inr rfl, fun _ => rfl⟩
  rw [getElem?_eq_none (by rw [length_append, length_singleton]; omega),
    getElem?_eq_none (Nat.le_of_lt hgt)]
  constructor
  · exact fun h => nomatch h
  · rintro (h | h)
    · cases h
    · omega

theorem Sound.take (h : Sound worlds state) (hnext : state.nextPage options = some position)
    (htake : state.take options position = some (slot, next)) :
    Sound worlds { next with active := state.active ++ [slot] } := by
  obtain ⟨list, hlist, rfl, rfl⟩ := take_some htake
  obtain ⟨found, hfound, hnumber, hlaunch⟩ := nextPage_some hnext
  rw [hlist, Option.some.injEq] at hfound
  rw [← hfound] at hnumber hlaunch
  obtain ⟨world, hworld, hinv⟩ := forall₂_at h.lists hlist
  obtain ⟨hinv', hserves, hkeep⟩ := world.2.launch hinv hlaunch
  have hbound : position.list < state.lists.length := (List.getElem?_eq_some_iff.mp hlist).1
  refine ⟨forall₂_set h.lists hworld hinv', ?_, ?_, ?_⟩
  · intro slot hslot
    obtain hslot | hslot := List.mem_append.mp hslot
    · obtain ⟨world', list', k, hworld', hlist', hk, hpending, hserved⟩ := h.serves slot hslot
      by_cases hsame : slot.position.list = position.list
      · rw [hsame] at hworld' hlist' ⊢
        rw [hworld, Option.some.injEq] at hworld'
        rw [hlist, Option.some.injEq] at hlist'
        subst hworld' hlist'
        exact ⟨world, _, k, hworld, getElem?_set_self hbound, hk,
          launchPage_pending.mpr (.inl hpending), hkeep _ _ hserved⟩
      · exact ⟨world', list', k, hworld', (getElem?_set_ne (Ne.symm hsame)).trans hlist', hk,
          hpending, hserved⟩
    · rw [mem_singleton] at hslot
      subst hslot
      exact ⟨world, _, _, hworld, getElem?_set_self hbound, hnumber,
        launchPage_pending.mpr (.inr rfl), hserves⟩
  · rw [map_append, map_singleton]
    refine nodup_append.mpr ⟨h.distinct, nodup_singleton _, ?_⟩
    intro other hother fresh hfresh heq
    rw [mem_singleton] at hfresh
    obtain ⟨old, hold, rfl⟩ := mem_map.mp hother
    obtain ⟨-, list', k, -, hlist', hk, hpending, -⟩ := h.serves old hold
    rw [heq, hfresh] at hlist' hk
    rw [hlist, Option.some.injEq] at hlist'
    rw [hnumber] at hk
    have hk : list.pages.length ≤ k := by omega
    rw [← hlist', getElem?_eq_none hk] at hpending
    cases hpending
  · intro i list' k hlist' hpending
    by_cases hsame : i = position.list
    · rw [hsame, getElem?_set_self hbound, Option.some.injEq] at hlist'
      rw [← hlist'] at hpending
      obtain hpending | hk := launchPage_pending.mp hpending
      · obtain ⟨slot, hslot, hposition⟩ := h.requested _ _ _ hlist hpending
        exact ⟨slot, mem_append_left _ hslot, by rw [hposition, hsame]⟩
      · refine ⟨_, mem_append_right _ (mem_singleton.mpr rfl), ?_⟩
        rw [hk, hsame, ← hnumber]
    · rw [getElem?_set_ne (Ne.symm hsame)] at hlist'
      obtain ⟨slot, hslot, hposition⟩ := h.requested _ _ _ hlist' hpending
      exact ⟨slot, mem_append_left _ hslot, hposition⟩

section

variable (list) (number : Nat)

variable (options) in
theorem acceptNumbers_fields (page : NumberedPage Value) :
    ∃ pagelen known, (acceptNumbers options list number page).1 =
      { list with pagelen := pagelen, known := known } := by
  unfold acceptNumbers
  dsimp only
  split
  · split
    · exact ⟨_, _, rfl⟩
    split
    · split
      · split
        · exact ⟨_, _, rfl⟩
        · exact ⟨_, _, rfl⟩
      · exact ⟨_, _, rfl⟩
    · exact ⟨_, _, rfl⟩
  · exact ⟨_, _, rfl⟩

variable (options) in
theorem acceptNext_fields (url : Bytes) (link : Option Bytes) :
    (acceptNext options list number url link).1.pages = list.pages ∧
      (acceptNext options list number url link).1.first = list.first ∧
        (acceptNext options list number url link).1.pagelen = list.pagelen := by
  unfold acceptNext
  split
  · exact ⟨rfl, rfl, rfl⟩
  split
  · exact ⟨rfl, rfl, rfl⟩
  · split
    · exact ⟨rfl, rfl, rfl⟩
    · exact ⟨rfl, rfl, rfl⟩

variable (options decode) in
/-- What `accept` leaves of a List: the List as it was, the one with the numbers of the page, or this
one with its link. -/
theorem accept_cases (url : Bytes) (reply : Except PageError (NumberedPage Value)) :
    (accept options decode list number url reply).1 = list ∨ ∃ page, reply = .ok page ∧
        ((accept options decode list number url reply).1 = (acceptNumbers options list number page).1 ∨
          (accept options decode list number url reply).1 =
            (acceptNext options (acceptNumbers options list number page).1 number url page.next).1) := by
  unfold accept
  cases reply with
  | error reason => exact .inl rfl
  | ok page =>
    dsimp only
    split
    · exact .inl rfl
    right
    refine ⟨page, rfl, ?_⟩
    cases acceptNumbers options list number page with
    | mk numbered accepted =>
      cases accepted with
      | false => exact .inl rfl
      | true =>
        dsimp only
        cases page.values.mapM decode with
        | error reason => exact .inl rfl
        | ok items =>
          cases acceptNext options numbered number url page.next with
          | mk linked accepted =>
            cases accepted with
            | false | true => exact .inr rfl

theorem accept_pages (url : Bytes) (reply : Except PageError (NumberedPage Value)) :
    (accept options decode list number url reply).1.pages = list.pages := by
  obtain heq | ⟨page, -, heq | heq⟩ := accept_cases options decode list number url reply
  · rw [heq]
  · obtain ⟨pagelen, known, hfields⟩ := acceptNumbers_fields options list number page
    rw [heq, hfields]
  · obtain ⟨pagelen, known, hfields⟩ := acceptNumbers_fields options list number page
    rw [heq, (acceptNext_fields options _ number url page.next).1, hfields]

theorem completePage_pages (url : Bytes) :
    (completePage options decode fetch list number url).pages = list.pages.set (number - 1)
      (settled (accept options decode list number url (fetch url)).2) := by
  unfold completePage
  dsimp only
  rw [accept_pages]

end

theorem settled_ne_pending (reply : Except PageError (List Item)) : settled reply ≠ .pending := by
  cases reply <;> exact fun h => by cases h

theorem completePage_pending {number k : Nat} {url : Bytes} :
    (completePage options decode fetch list (number + 1) url).pages[k]? = some .pending ↔
      list.pages[k]? = some .pending ∧ k ≠ number := by
  rw [completePage_pages, Nat.add_sub_cancel]
  by_cases hk : k = number
  · rw [hk]
    constructor
    · intro h
      obtain ⟨hlt, hget⟩ := List.getElem?_eq_some_iff.mp h
      rw [List.getElem_set_self] at hget
      exact absurd hget (settled_ne_pending _)
    · exact fun h => absurd rfl h.2
  · rw [getElem?_set_ne (Ne.symm hk)]
    exact ⟨fun h => ⟨h, hk⟩, fun h => h.1⟩

theorem nodup_eraseIdx_ne {α : Type} {xs : List α} (h : xs.Nodup) {i : Nat} {x : α}
    (hx : xs[i]? = some x) : x ∉ xs.eraseIdx i := by
  obtain ⟨hi, rfl⟩ := List.getElem?_eq_some_iff.mp hx
  exact (nodup_cons.mp ((getElem_cons_eraseIdx_perm hi).nodup_iff.mpr h)).1

theorem Sound.complete (h : Sound worlds state) (hslot : state.active[index]? = some slot) :
    Sound worlds
      { state.complete options decode fetch slot with active := state.active.eraseIdx index } := by
  obtain ⟨world, list, number, hworld, hlist, hnumber, hpending, hserved⟩ :=
    h.serves slot (mem_of_getElem? hslot)
  obtain ⟨hinv, hkeep⟩ := world.2.complete (by
      obtain ⟨world', hworld', hinv⟩ := forall₂_at h.lists hlist
      rw [hworld, Option.some.injEq] at hworld'
      rwa [hworld']) hpending hserved
  have hbound : slot.position.list < state.lists.length := (List.getElem?_eq_some_iff.mp hlist).1
  have hmodify : (state.complete options decode fetch slot).lists = state.lists.set slot.position.list
      (completePage options decode fetch list (number + 1) slot.url) := by
    unfold PagedLists.complete
    rw [modify_eq_set_getElem?, hlist, hnumber]
    rfl
  have hothers : ∀ other ∈ state.active.eraseIdx index, other.position ≠ slot.position := by
    intro other hother heq
    have hposition : (state.active.map PagedLists.Slot.position)[index]? = some slot.position := by
      rw [getElem?_map, hslot]
      rfl
    refine nodup_eraseIdx_ne h.distinct hposition ?_
    rw [eraseIdx_map, ← heq]
    exact mem_map_of_mem hother
  have hremains : ∀ other ∈ state.active, other.position ≠ slot.position →
      other ∈ state.active.eraseIdx index := by
    intro other hother hne
    obtain ⟨i, hi⟩ := getElem?_of_mem hother
    refine mem_eraseIdx_iff_getElem?.mpr ⟨i, ?_, hi⟩
    rintro rfl
    rw [hslot, Option.some.injEq] at hi
    exact hne (congrArg PagedLists.Slot.position hi.symm)
  constructor
  · dsimp only
    rw [hmodify]
    exact forall₂_set h.lists hworld hinv
  · intro other hother
    rw [hmodify]
    obtain ⟨world', list', k, hworld', hlist', hk, hpending', hserved'⟩ :=
      h.serves other (mem_of_mem_eraseIdx hother)
    by_cases hsame : other.position.list = slot.position.list
    · rw [hsame] at hworld' hlist' ⊢
      rw [hworld, Option.some.injEq] at hworld'
      rw [hlist, Option.some.injEq] at hlist'
      subst hworld' hlist'
      have hne : k ≠ number := by
        intro heq
        refine hothers other hother ?_
        rw [← heq, ← hk] at hnumber
        cases hposition : other.position
        cases hposition' : slot.position
        rw [hposition] at hsame hnumber
        rw [hposition'] at hsame hnumber
        dsimp only at hsame hnumber
        rw [hsame, hnumber]
      exact ⟨world, _, k, hworld, getElem?_set_self hbound, hk,
        completePage_pending.mpr ⟨hpending', hne⟩, hkeep _ _ (by omega) hserved'⟩
    · exact ⟨world', list', k, hworld', (getElem?_set_ne (Ne.symm hsame)).trans hlist', hk,
        hpending', hserved'⟩
  · dsimp only
    rw [← eraseIdx_map]
    exact h.distinct.eraseIdx index
  · dsimp only
    rw [hmodify]
    intro i list' k hlist' hpending'
    by_cases hsame : i = slot.position.list
    · rw [hsame, getElem?_set_self hbound, Option.some.injEq] at hlist'
      rw [← hlist'] at hpending'
      obtain ⟨hpending', hne⟩ := completePage_pending.mp hpending'
      obtain ⟨other, hother, hposition⟩ := h.requested _ _ _ hlist hpending'
      refine ⟨other, hremains other hother ?_, by rw [hposition, hsame]⟩
      intro heq
      rw [← heq, hposition] at hnumber
      exact hne (Nat.succ.inj hnumber)
    · rw [getElem?_set_ne (Ne.symm hsame)] at hlist'
      obtain ⟨other, hother, hposition⟩ := h.requested _ _ _ hlist' hpending'
      refine ⟨other, hremains other hother ?_, hposition⟩
      intro heq
      rw [← heq, hposition] at hsame
      exact hsame rfl

/-! ### Runs -/

def launchedCount : List (PagedList Item) → Nat
  | [] => 0
  | list :: lists => list.pages.length + launchedCount lists

def boundCount : PageWorlds options decode fetch → Nat
  | [] => 0
  | world :: worlds => world.2.bound + boundCount worlds

theorem launchedCount_le (h : List.Forall₂
      (fun (world : Sigma (PageWorld options decode fetch)) list => world.2.inv list) worlds lists) :
    launchedCount lists ≤ boundCount worlds := by
  induction h with
  | nil => exact Nat.le_refl 0
  | @cons world list worlds lists hinv _ ih =>
    have hbound := world.2.bounded hinv
    rw [launchedCount, boundCount]
    omega

theorem launchedCount_set {i : Nat} (changed : PagedList Item) (h : lists[i]? = some list) :
    launchedCount (lists.set i changed) + list.pages.length =
      launchedCount lists + changed.pages.length := by
  induction lists generalizing i with
  | nil => cases h
  | cons head lists ih =>
    cases i with
    | zero =>
      cases h
      rw [set_cons_zero, launchedCount, launchedCount]
      omega
    | succ i =>
      have hrest := ih h
      rw [set_cons_succ, launchedCount, launchedCount]
      omega

variable {event : PagingEvent}

/-- What a step can do. -/
theorem step_cases (h : state.step options decode fetch event = some next) :
    (∃ position slot taken, event ≠ .inline ∧ state.nextPage options = some position ∧
      state.take options position = some (slot, taken) ∧ state.active.length < options.concurrency ∧
          next = { taken with active := state.active ++ [slot] }) ∨
    (∃ position slot taken, state.nextPage options = some position ∧
      state.take options position = some (slot, taken) ∧ state.active.length < options.concurrency ∧
          next = { taken.complete options decode fetch slot with concurrent := false }) ∨
    (∃ index slot, event ≠ .inline ∧ state.active[index]? = some slot ∧
      next = { state.complete options decode fetch slot with
        active := state.active.eraseIdx index }) := by
  have hroom : state.waits options = false → state.active.length < options.concurrency := by
    intro hwaits
    unfold waits at hwaits
    rw [Bool.or_eq_false_iff, Bool.or_eq_false_iff, decide_eq_false_iff_not] at hwaits
    omega
  have hlaunch : PagingEvent.launch ≠ .inline := fun h => nomatch h
  have hcomplete : ∀ index, PagingEvent.complete index ≠ .inline := fun _ h => nomatch h
  cases event with
  | launch =>
    left
    rw [step] at h
    split at h
    · cases h
    rename_i hguard
    rw [Bool.or_eq_true, not_or, Bool.not_eq_true] at hguard
    split at h
    · cases h
    rename_i slot taken htaken
    obtain ⟨position, hnext, htake⟩ := Option.bind_eq_some_iff.mp htaken
    cases h
    obtain ⟨list, -, -, rfl⟩ := take_some htake
    exact ⟨position, slot, _, hlaunch, hnext, htake, hroom hguard.1, rfl⟩
  | inline =>
    right; left
    rw [step] at h
    split at h
    · cases h
    rename_i hguard
    split at h
    · cases h
    rename_i slot taken htaken
    obtain ⟨position, hnext, htake⟩ := Option.bind_eq_some_iff.mp htaken
    cases h
    exact ⟨position, slot, taken, hnext, htake, hroom (Bool.eq_false_iff.mpr hguard), rfl⟩
  | complete index =>
    right; right
    rw [step] at h
    split at h
    · split at h
      · cases h
      · rename_i slot hslot
        cases h
        exact ⟨index, slot, hcomplete index, hslot, rfl⟩
    · cases h

variable {taken : PagedLists Item}

/-- A page that is fetched in place is launched and complete at once. -/
theorem Sound.inline (h : Sound worlds state) (hnext : state.nextPage options = some position)
    (htake : state.take options position = some (slot, taken)) :
    Sound worlds { taken.complete options decode fetch slot with concurrent := false } := by
  have hlaunched := h.take hnext htake
  have hslot : (state.active ++ [slot])[state.active.length]? = some slot := getElem?_concat_length
  have hcomplete := hlaunched.complete hslot
  obtain ⟨list, -, -, htaken⟩ := take_some htake
  have hactive : taken.active = state.active := by rw [htaken]
  rw [eraseIdx_append_of_length_le (Nat.le_refl _), Nat.sub_self, eraseIdx_cons_zero, append_nil, ← hactive] at hcomplete
  exact ⟨hcomplete.lists, hcomplete.serves, hcomplete.distinct, hcomplete.requested⟩

/-- What every reachable state of the coordinator keeps. -/
structure Running (worlds : PageWorlds options decode fetch) (state : PagedLists Item) : Prop where
  sound : Sound worlds state
  width : state.active.length ≤ options.concurrency

def PagedLists.remaining (worlds : PageWorlds options decode fetch) (state : PagedLists Item) : Nat :=
  2 * (boundCount worlds - launchedCount state.lists) + state.active.length

theorem completePage_length (number : Nat) (url : Bytes) :
    (completePage options decode fetch list number url).pages.length = list.pages.length := by
  rw [completePage_pages, length_set]

variable (options decode fetch) in
theorem launchedCount_complete (state : PagedLists Item) (slot : PagedLists.Slot) :
    launchedCount (state.complete options decode fetch slot).lists = launchedCount state.lists := by
  unfold complete
  rw [modify_eq_set_getElem?]
  cases hlist : state.lists[slot.position.list]? with
  | none => rfl
  | some list =>
    have hset := launchedCount_set
      (completePage options decode fetch list slot.position.number slot.url) hlist
    rw [completePage_length] at hset
    exact Nat.add_right_cancel hset

theorem launchedCount_take (htake : state.take options position = some (slot, taken)) :
    launchedCount taken.lists = launchedCount state.lists + 1 ∧ taken.active = state.active := by
  obtain ⟨list, hlist, -, rfl⟩ := take_some htake
  have hset := launchedCount_set (launchPage options list) hlist
  rw [launchPage_pages, length_append, length_singleton] at hset
  exact ⟨by dsimp only; omega, rfl⟩

theorem Running.step (h : Running worlds state)
    (hstep : state.step options decode fetch event = some next) :
    Running worlds next ∧ next.remaining worlds < state.remaining worlds := by
  obtain ⟨position, slot, taken, -, hnext, htake, hroom, rfl⟩ |
    ⟨position, slot, taken, hnext, htake, hroom, rfl⟩ | ⟨index, slot, -, hslot, rfl⟩ :=
    step_cases hstep
  · have hsound := h.sound.take hnext htake
    obtain ⟨hcount, -⟩ := launchedCount_take htake
    have hbound := launchedCount_le hsound.lists
    have hlength : (state.active ++ [slot]).length = state.active.length + 1 := length_append
    refine ⟨⟨hsound, by dsimp only; omega⟩, ?_⟩
    unfold remaining
    dsimp only at hbound ⊢
    omega
  · have hsound := h.sound.inline hnext htake
    obtain ⟨hcount, hactive⟩ := launchedCount_take htake
    have hbound := launchedCount_le hsound.lists
    have hcomplete := launchedCount_complete options decode fetch taken slot
    have hlength : (taken.complete options decode fetch slot).active.length = state.active.length := by
      rw [← hactive]
      rfl
    refine ⟨⟨hsound, by dsimp only; omega⟩, ?_⟩
    unfold remaining
    dsimp only at hbound ⊢
    omega
  · have hcomplete := launchedCount_complete options decode fetch state slot
    have hlt : index < state.active.length := (List.getElem?_eq_some_iff.mp hslot).1
    have hlength := List.length_eraseIdx_of_lt hlt
    have hwidth := h.width
    refine ⟨⟨h.sound.complete hslot, by dsimp only; omega⟩, ?_⟩
    unfold remaining
    dsimp only
    omega

theorem exists_step (hconcurrency : 0 < options.concurrency) (hended : state.ended options = false) :
    ∃ event next, state.step options decode fetch event = some next := by
  cases hwaits : state.waits options with
  | true =>
    have hactive : 0 < state.active.length := by
      by_contra hnone
      have hempty : state.active = [] := length_eq_zero_iff.mp (by omega)
      unfold ended at hended
      unfold waits at hwaits
      rw [hempty] at hended hwaits
      simp at hended hwaits
      rw [hwaits.resolve_right (by omega)] at hended
      cases hended
    refine ⟨.complete 0, ?_⟩
    rw [step, if_pos hwaits, getElem?_eq_getElem hactive]
    exact ⟨_, rfl⟩
  | false =>
    cases hnext : state.nextPage options with
    | none =>
      unfold waits at hwaits
      rw [hnext] at hwaits
      cases hwaits
    | some position =>
      obtain ⟨list, hlist, -, -⟩ := nextPage_some hnext
      refine ⟨.inline, ?_⟩
      rw [step, if_neg (by rw [hwaits]; decide), hnext, Option.bind_some, PagedLists.take, hlist]
      exact ⟨_, rfl⟩

theorem Running.start : Running worlds (PagedLists.start options (worlds.map Sigma.fst)) :=
  ⟨.start, Nat.zero_le _⟩

/-- The steps of the coordinator, with what happens as their label. -/
def pagingStep (options : PagedListOptions) (decode : Value → Except PageError Item)
    (fetch : Bytes → Except PageError (NumberedPage Value)) (state : PagedLists Item)
    (event : PagingEvent) (next : PagedLists Item) : Prop :=
  state.step options decode fetch event = some next

variable {events : List PagingEvent}

theorem run_steps : Run (pagingStep options decode fetch) state events next ↔
      state.steps options decode fetch events = some next := by
  induction events generalizing state with
  | nil => rw [Run.nil_iff, steps, Option.some.injEq]
  | cons event events ih =>
    rw [Run.cons_iff, steps, Option.bind_eq_some_iff]
    exact exists_congr (fun between => and_congr_right (fun _ => ih))

theorem Running.run (h : Run (pagingStep options decode fetch)
      (PagedLists.start options (worlds.map Sigma.fst)) events state) :
    Running worlds state ∧ events.length ≤ 2 * boundCount worlds := by
  have hrunning : Running worlds state :=
    h.invariant (Running worlds) (fun hstep hs => (hs.step hstep).1) .start
  have hlength := h.length_le (Running worlds) (remaining worlds) (fun hstep hs => hs.step hstep) .start
  have hstart : (PagedLists.start options (worlds.map Sigma.fst) : PagedLists Item).remaining worlds ≤
      2 * boundCount worlds := by
    unfold PagedLists.remaining
    have hactive : (PagedLists.start options (worlds.map Sigma.fst) : PagedLists Item).active = [] := rfl
    rw [hactive, length_nil]
    omega
  exact ⟨hrunning, by omega⟩

end Bbr.Bitbucket

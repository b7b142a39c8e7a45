import Bbr.Diff.Parser

/-!
# Concurrent paging

The coordinator of `listPagesConcurrent`: Lists of pages, the requests under way, and what the
completion of one changes. `fetch` stands for a request with the decoding of its body, `decode` for
that of one value. Allocation and the details of errors are left out. `listPages` follows links,
without what it does for Tasks, Comments and the commits of a Pull Request alone.
-/
namespace Bbr.Bitbucket

inductive PageError where
  | api (reason : ApiError)
  | zig (name : Bytes)
  deriving DecidableEq, Repr

def malformed : PageError := .api .malformedResponse

/-- The values and the navigation fields of a page. -/
structure NumberedPage (Value : Type) where
  values : List Value
  next : Option Bytes := none
  page : Option Nat := none
  pagelen : Option Nat := none
  size : Option Nat := none
  deriving DecidableEq, Repr

structure PagedListOptions where
  pagelen : Nat
  concurrency : Nat
  limit : Option Nat := none
  firstPage : Nat := 1
  deriving DecidableEq, Repr

structure PagePosition where
  list : Nat
  number : Nat
  deriving DecidableEq, Repr

def PagePosition.before (self other : PagePosition) : Bool :=
  decide (self.list < other.list ∨ (self.list = other.list ∧ self.number < other.number))

inductive PageState (Item : Type) where
  | pending
  | done (items : List Item)
  | failed (reason : PageError)
  deriving DecidableEq, Repr

/-- `known` counts the pages that have a URL, `last` is the first page without `next`. -/
structure PagedList (Item : Type) where
  first : Bytes
  pagelen : Nat := 0
  known : Nat := 1
  link : Option Bytes := none
  last : Option Nat := none
  pages : List (PageState Item) := []
  followed : List Bytes := []
  deriving DecidableEq, Repr

structure PagedLists.Slot where
  position : PagePosition
  url : Bytes
  deriving DecidableEq, Repr

/-- The state of the coordinator; `concurrent` falls once no task can be started. -/
structure PagedLists (Item : Type) where
  lists : List (PagedList Item)
  active : List PagedLists.Slot := []
  concurrent : Bool
  deriving DecidableEq, Repr

def maxU32 : Nat := 4294967295

def questionMark : UInt8 := 0x3f
def ampersand : UInt8 := 0x26

/-- `page=` -/
def pageKey : Bytes := [0x70, 0x61, 0x67, 0x65, 0x3d]

/-- Whether `next` addresses page `expected` of the List at `first` by number. -/
def numberedNext (next first : Bytes) (expected : Nat) : Bool :=
  let path := first.takeWhile (fun b => b != questionMark)
  if !path.isPrefixOf next || (next.drop path.length).head? != some questionMark then false
  else
    match ((next.drop (path.length + 1)).splitOn ampersand).find? (fun pair => pageKey.isPrefixOf pair) with
    | none => false
    | some pair => Diff.parseInt (maxU32 + 1) (pair.drop pageKey.length) == some expected

def decimal (n : Nat) : Bytes := (Nat.toDigits 10 n).map (fun c => UInt8.ofNat c.toNat)

/-- `first&page=n` -/
def numberedUrl (first : Bytes) (n : Nat) : Bytes := first ++ [ampersand] ++ pageKey ++ decimal n

section Coordinator

variable {Item Value : Type} (options : PagedListOptions) (decode : Value → Except PageError Item)
  (fetch : Bytes → Except PageError (NumberedPage Value))

def atLimit (items : Nat) : Bool :=
  match options.limit with
  | none => false
  | some limit => decide (limit ≤ items)

/-- Whether the number is past the last page. -/
def pastLast (last : Option Nat) (number : Nat) : Bool :=
  match last with
  | none => false
  | some last => decide (last < number)

inductive PrefixEnd where
  | through (items : Nat)
  | missing (items number : Nat)
  | full (items : Nat)
  deriving DecidableEq, Repr

/-- The pages of one List from `number` on, behind `items` items. -/
def prefixList (last : Option Nat) : List (PageState Item) → Nat → Nat → PrefixEnd
  | pages, number, items =>
    if pastLast last number then .through items
    else
      match pages with
      | .done page :: pages =>
        if atLimit options (items + page.length) then .full (items + page.length)
        else prefixList last pages (number + 1) (items + page.length)
      | _ => .missing items number

/-- The items so far, and the first needed page that is not done. -/
def prefixFrom : List (PagedList Item) → Nat → Nat → Nat × Option PagePosition
  | [], _, items => (items, none)
  | list :: lists, index, items =>
    match prefixList options list.last list.pages 1 items with
    | .through items => prefixFrom lists (index + 1) items
    | .missing items number => (items, some ⟨index, number⟩)
    | .full items => (items, none)

def PagedLists.merged (self : PagedLists Item) : Nat × Option PagePosition :=
  prefixFrom options self.lists 0 0

def failedPage (last : Option Nat) : List (PageState Item) → Nat → Option (Nat × PageError)
  | [], _ => none
  | page :: pages, number =>
    if pastLast last number then none
    else
      match page with
      | .failed reason => some (number, reason)
      | _ => failedPage last pages (number + 1)

/-- The lowest failed page that the result needs, with its reason. -/
def firstFailureFrom : List (PagedList Item) → Nat → Option (PagePosition × PageError)
  | [], _ => none
  | list :: lists, index =>
    match failedPage list.last list.pages 1 with
    | some (number, reason) => some (⟨index, number⟩, reason)
    | none => firstFailureFrom lists (index + 1)

def PagedLists.firstFailure (self : PagedLists Item) : Option (PagePosition × PageError) :=
  firstFailureFrom self.lists 0

/-- The items of the pages, as far as they are done; any other page counts as full. -/
def rowCount (pagelen : Nat) : List (PageState Item) → Nat
  | [] => 0
  | .done items :: pages => items.length + rowCount pagelen pages
  | _ :: pages => pagelen + rowCount pagelen pages

/-- Whether the page behind the launched ones can hold a row within the limit. -/
def withinLimit (list : PagedList Item) : Bool :=
  !atLimit options (rowCount list.pagelen list.pages)

/-- Whether the List has a page to launch. -/
def launchable (list : PagedList Item) : Bool :=
  decide (list.pages.length < list.known) && !pastLast list.last (list.pages.length + 1) &&
    withinLimit options list

/-- The first List with a page to launch before the failure: its first page, or one behind it. -/
def findPage (failure : Option PagePosition) (firstPages : Bool) :
    List (PagedList Item) → Nat → Option PagePosition
  | [], _ => none
  | list :: lists, index =>
    let position : PagePosition := ⟨index, list.pages.length + 1⟩
    if (firstPages == decide (list.pages.length = 0)) && launchable options list &&
        failure.all (fun failed => position.before failed) then some position
    else findPage failure firstPages lists (index + 1)

/-- Page 1 of each List first, then the lowest remaining page. -/
def PagedLists.nextPage (self : PagedLists Item) : Option PagePosition :=
  if (self.merged options).2.isNone then none
  else
    let failure := self.firstFailure.map Prod.fst
    if failure.isSome && options.limit.isNone then none
    else (findPage options failure true self.lists 0).or (findPage options failure false self.lists 0)

def pageNumber (number : Nat) : Nat := options.firstPage + number - 1

/-- The URL of the next page of a List. -/
def pageUrl (list : PagedList Item) : Bytes :=
  let number := pageNumber options (list.pages.length + 1)
  if number = 1 then list.first
  else
    match list.link with
    | some link => link
    | none => numberedUrl list.first number

/-- The List behind the launch: a link is used up. -/
def launchPage (list : PagedList Item) : PagedList Item :=
  { list with
    link := if pageNumber options (list.pages.length + 1) = 1 then list.link else none
    pages := list.pages ++ [.pending] }

/-- The page length and the numbered pages that a page reports; false is an error. -/
def acceptNumbers (list : PagedList Item) (number : Nat) (page : NumberedPage Value) :
    PagedList Item × Bool :=
  if number = 1 then
    let pagelen := page.pagelen.getD options.pagelen
    let list := { list with pagelen := pagelen }
    if pagelen = 0 ∨ options.pagelen < pagelen then (list, false)
    else
      match page.next, page.size with
      | some next, some size =>
        if numberedNext next list.first (pageNumber options number + 1) then
          let total := (size + pagelen - 1) / pagelen
          if maxU32 < total then (list, false)
          else ({ list with known := max 1 (total - (options.firstPage - 1)) }, true)
        else (list, true)
      | _, _ => (list, true)
  else (list, page.pagelen.getD list.pagelen == list.pagelen)

/-- The link of a page: to a numbered page, to follow, or none on the last page. -/
def acceptNext (list : PagedList Item) (number : Nat) (url : Bytes) (next : Option Bytes) :
    PagedList Item × Bool :=
  match next with
  | none => ({ list with last := some (min (list.last.getD number) number) }, true)
  | some next =>
    if number < list.known then
      (list, numberedNext next list.first (pageNumber options number + 1))
    else if url == next || list.followed.contains next then (list, false)
    else
      ({ list with
          followed := url :: list.followed
          link := some next
          known := number + 1 }, true)

def accept (list : PagedList Item) (number : Nat) (url : Bytes)
    (reply : Except PageError (NumberedPage Value)) :
    PagedList Item × Except PageError (List Item) :=
  match reply with
  | .error reason => (list, .error reason)
  | .ok page =>
    if page.page.getD (pageNumber options number) ≠ pageNumber options number then
      (list, .error malformed)
    else
      match acceptNumbers options list number page with
      | (list, false) => (list, .error malformed)
      | (list, true) =>
        match page.values.mapM decode with
        | .error reason => (list, .error reason)
        | .ok items =>
          match acceptNext options list number url page.next with
          | (list, false) => (list, .error malformed)
          | (list, true) => (list, .ok items)

def settled (reply : Except PageError (List Item)) : PageState Item :=
  match reply with
  | .ok items => .done items
  | .error reason => .failed reason

def completePage (list : PagedList Item) (number : Nat) (url : Bytes) : PagedList Item :=
  let (list, reply) := accept options decode list number url (fetch url)
  { list with pages := list.pages.set (number - 1) (settled reply) }

def PagedLists.complete (self : PagedLists Item) (slot : Slot) : PagedLists Item :=
  let lists := self.lists.modify slot.position.list
    (fun list => completePage options decode fetch list slot.position.number slot.url)
  { self with lists := lists }

/-- A task starts, a fetch runs in place because none can start, or a request completes. -/
inductive PagingEvent where
  | launch
  | inline
  | complete (index : Nat)
  deriving DecidableEq, Repr

/-- The slot that the next page takes, and the Lists behind its launch. -/
def PagedLists.take (self : PagedLists Item) (position : PagePosition) :
    Option (PagedLists.Slot × PagedLists Item) :=
  match self.lists[position.list]? with
  | none => none
  | some list => some (⟨position, pageUrl options list⟩,
      { self with lists := self.lists.set position.list (launchPage options list) })

/-- The coordinator waits for a completion only when it launches nothing more. -/
def PagedLists.waits (self : PagedLists Item) : Bool :=
  (self.nextPage options).isNone || decide (options.concurrency ≤ self.active.length) ||
    (!self.concurrent && !self.active.isEmpty)

def PagedLists.step (self : PagedLists Item) : PagingEvent → Option (PagedLists Item)
  | .launch =>
    if self.waits options || !self.concurrent then none
    else
      match (self.nextPage options).bind (self.take options) with
      | none => none
      | some (slot, self) => some { self with active := self.active ++ [slot] }
  | .inline =>
    if self.waits options then none
    else
      match (self.nextPage options).bind (self.take options) with
      | none => none
      | some (slot, self) =>
        some { self.complete options decode fetch slot with concurrent := false }
  | .complete index =>
    if self.waits options then
      match self.active[index]? with
      | none => none
      | some slot =>
        some { self.complete options decode fetch slot with active := self.active.eraseIdx index }
    else none

/-- Nothing is left to launch or to wait for. -/
def PagedLists.ended (self : PagedLists Item) : Bool :=
  (self.nextPage options).isNone && self.active.isEmpty

/-- What is answered before any request is made. -/
def answersAtOnce (firsts : List Bytes) : Option (Except PageError (List Item)) :=
  if firsts = [] ∨ options.pagelen = 0 ∨ options.concurrency = 0 then some (.error (.api .badRequest))
  else if options.limit = some 0 then some (.ok [])
  else none

def PagedLists.start (firsts : List Bytes) : PagedLists Item where
  lists := firsts.map (fun first => { first := first })
  concurrent := decide (1 < options.concurrency)

def doneItems : PageState Item → List Item
  | .done items => items
  | _ => []

/-- The pages of a List up to its last one. -/
def withinLast (list : PagedList Item) : List (PageState Item) :=
  match list.last with
  | none => list.pages
  | some last => list.pages.take last

def PagedLists.finish (self : PagedLists Item) : Except PageError (List Item) :=
  let (items, missing) := self.merged options
  match missing with
  | some _ =>
    match self.firstFailure with
    | none => .error malformed
    | some (_, reason) => .error reason
  | none =>
    let count := match options.limit with
      | none => items
      | some limit => min items limit
    .ok ((self.lists.flatMap (fun list => (withinLast list).flatMap doneItems)).take count)

/-- The loop, with completions in the order that the events give. -/
def PagedLists.steps (self : PagedLists Item) : List PagingEvent → Option (PagedLists Item)
  | [] => some self
  | event :: events => (self.step options decode fetch event).bind (fun next => next.steps events)

/-- The result of a run with these events, if they bring it to its end. -/
def listPagesConcurrent (firsts : List Bytes) (events : List PagingEvent) :
    Option (Except PageError (List Item)) :=
  match answersAtOnce options firsts with
  | some answer => some answer
  | none =>
    ((PagedLists.start options firsts).steps options decode fetch events).bind (fun state =>
      if state.ended options then some (state.finish options) else none)

/-- The values of a page, up to the limit. -/
def appendValues (limit : Option Nat) : List Item → List Value → Except PageError (List Item)
  | out, [] => .ok out
  | out, value :: values =>
    if limit.any (fun limit => decide (limit ≤ out.length)) then .ok out
    else
      match decode value with
      | .error reason => .error reason
      | .ok item => appendValues limit (out ++ [item]) values

/-- `listPages` from a URL on; each round of its loop takes one unit of fuel. -/
def listPagesFrom (limit : Option Nat) :
    Nat → Bytes → List Bytes → List Item → Option (Except PageError (List Item))
  | 0, _, _, _ => none
  | fuel + 1, url, followed, out =>
    match fetch url with
    | .error reason => some (.error reason)
    | .ok page =>
      match appendValues decode limit out page.values with
      | .error reason => some (.error reason)
      | .ok out =>
        if limit.any (fun limit => decide (limit ≤ out.length)) then some (.ok out)
        else
          match page.next with
          | none => some (.ok out)
          | some next =>
            if url == next || followed.contains next then some (.error malformed)
            else listPagesFrom limit fuel next (url :: followed) out

def listPages (limit : Option Nat) (fuel : Nat) (url : Bytes) :
    Option (Except PageError (List Item)) :=
  if limit = some 0 then some (.ok []) else listPagesFrom decode fetch limit fuel url [] []

end Coordinator

end Bbr.Bitbucket

import Mathlib.Data.List.TakeWhile
import Bbr.Http.Digits
import Bbr.Lib.Splits

/-!
# Pull-request URLs

A pasted URL names a workspace, a repository and an id: the two segments before the marker of its path
and the one behind it. The standard library splits the URL; its splitting is a parameter here.
-/
namespace Bbr.Bitbucket.Url

open Bbr.Diff (ascii slash parseInt usizeLimit)
open Bbr.Http (DigitsOf Marked)
open Bbr.Lib List

/-- What is used of a split URI. -/
structure Uri where
  host : Option Bytes
  path : Bytes
  deriving DecidableEq, Repr

structure PrRef where
  workspace : Bytes
  repoSlug : Bytes
  id : Nat
  deriving DecidableEq, Repr

inductive ParseError where
  | notABitbucketPrUrl
  | malformedUrl
  deriving DecidableEq, Repr

def isBitbucketHost (h : Bytes) : Bool :=
  h == ascii "bitbucket.org" || h == ascii "api.bitbucket.org"

def isMarker (seg : Bytes) : Bool := seg == ascii "pull-requests" || seg == ascii "pullrequests"

def maxSegments : Nat := 16

/-- The segments that are not empty. -/
def segments (path : Bytes) : List Bytes := (path.splitOn slash).filter (fun seg => !seg.isEmpty)

/-- The marker is the first segment that looks like one. -/
def refIn (segs : List Bytes) : Except ParseError PrRef :=
  match segs.findIdx? isMarker with
  | none => .error .notABitbucketPrUrl
  | some marker =>
    if marker < 2 ∨ segs.length ≤ marker + 1 then .error .malformedUrl
    else match parseInt usizeLimit (segs.getD (marker + 1) []) with
      | none => .error .malformedUrl
      | some id => .ok ⟨segs.getD (marker - 2) [], segs.getD (marker - 1) [], id⟩

def parse (parseUri : Bytes → Option Uri) (url : Bytes) : Except ParseError PrRef :=
  match parseUri url with
  | none => .error .malformedUrl
  | some uri => match uri.host with
    | none => .error .notABitbucketPrUrl
    | some host =>
      if isBitbucketHost host = false then .error .notABitbucketPrUrl
      else if maxSegments < (segments uri.path).length then .error .malformedUrl
      else refIn (segments uri.path)

def question : UInt8 := 0x3f
def hash : UInt8 := 0x23

/-- The path goes up to the query or the fragment. -/
def isPathByte (c : UInt8) : Bool := c != question && c != hash

def isSchemeByte (c : UInt8) : Bool :=
  (decide (0x61 ≤ c) && decide (c ≤ 0x7a)) || (decide (0x41 ≤ c) && decide (c ≤ 0x5a)) ||
    (decide (0x30 ≤ c) && decide (c ≤ 0x39)) || (ascii "+-.").contains c

def isHostByte (c : UInt8) : Bool := !(ascii "/?#@:[]").contains c

/-- The parameter splits a URI with an authority where its components meet: the host reaches up to
the path, the path up to the query or the fragment. -/
def SplitsUri (parseUri : Bytes → Option Uri) : Prop :=
  ∀ scheme host path tail : Bytes, scheme ≠ [] → (∀ c ∈ scheme, isSchemeByte c = true) →
    host ≠ [] → (∀ c ∈ host, isHostByte c = true) →
    (path = [] ∨ path.head? = some slash) → (∀ c ∈ path, isPathByte c = true) →
    (tail = [] ∨ ∃ c ∈ tail.head?, isPathByte c = false) →
    parseUri (scheme ++ ascii "://" ++ host ++ path ++ tail) = some ⟨some host, path⟩

/-- The two segments before the first marker and the one behind it. -/
def Located (segs : List Bytes) (workspace repo idText : Bytes) : Prop :=
  ∃ front marker rest, segs = front ++ workspace :: repo :: marker :: idText :: rest ∧
    isMarker marker = true ∧ ∀ seg ∈ front ++ [workspace, repo], isMarker seg = false

/-- The reference is what the URL says: a Bitbucket host, the segments around the marker, and a
positive number in decimal digits. -/
def Faithful (parseUri : Bytes → Option Uri) (url : Bytes) (ref : PrRef) : Prop :=
  ∃ uri host idText, parseUri url = some uri ∧ uri.host = some host ∧
    (host = ascii "bitbucket.org" ∨ host = ascii "api.bitbucket.org") ∧
    Located (segments uri.path) ref.workspace ref.repoSlug idText ∧
    DigitsOf idText ref.id ∧ 1 ≤ ref.id

inductive Form where
  | web
  | rest
  deriving DecidableEq, Repr

def Form.host : Form → Bytes
  | .web => ascii "bitbucket.org"
  | .rest => ascii "api.bitbucket.org"

def Form.front : Form → List Bytes
  | .web => []
  | .rest => [ascii "2.0", ascii "repositories"]

def Form.marker : Form → Bytes
  | .web => ascii "pull-requests"
  | .rest => ascii "pullrequests"

def Form.segments (form : Form) (workspace repo idText : Bytes) (trailing : List Bytes) : List Bytes :=
  form.front ++ workspace :: repo :: form.marker :: idText :: trailing

/-- `?query` and `#fragment`, where there are any. -/
def tailOf (query fragment : Option Bytes) : Bytes :=
  query.elim [] (fun text => question :: text) ++ fragment.elim [] (fun text => hash :: text)

def Form.url (form : Form) (workspace repo idText : Bytes) (trailing : List Bytes)
    (query fragment : Option Bytes) : Bytes :=
  ascii "https://" ++ form.host ++ led slash (form.segments workspace repo idText trailing) ++
    tailOf query fragment

/-- A slug: any text but for a slash. -/
def Slug (slug : Bytes) : Prop := slug ≠ [] ∧ slash ∉ slug

def Segment (seg : Bytes) : Prop := slash ∉ seg ∧ ∀ c ∈ seg, isPathByte c = true

/-- The slug ends no path and is no marker. -/
def Plain (slug : Bytes) : Prop := (∀ c ∈ slug, isPathByte c = true) ∧ isMarker slug = false

/-- No sign, no separator, not only zeros. -/
def PositiveId (idText : Bytes) : Prop := ¬ Marked idText ∧ ∃ c ∈ idText, c ≠ 0x30

/-- Both documented forms are read back. -/
def ReadsForms (parseUri : Bytes → Option Uri) : Prop :=
  ∀ (form : Form) (workspace repo idText : Bytes) (trailing : List Bytes)
    (query fragment : Option Bytes) (id : Nat), Slug workspace → Slug repo → DigitsOf idText id →
    1 ≤ id → id < usizeLimit → (∀ seg ∈ trailing, Segment seg) →
    parse parseUri (form.url workspace repo idText trailing query fragment) = .ok ⟨workspace, repo, id⟩

/-- Whatever is accepted is read faithfully. -/
def ReadsFaithfully (parseUri : Bytes → Option Uri) : Prop :=
  ∀ url ref, parse parseUri url = .ok ref → Faithful parseUri url ref

variable {parseUri : Bytes → Option Uri} {url : Bytes} {ref : PrRef} {segs : List Bytes}
  {workspace repo idText : Bytes} {front : List Bytes} {marker : Bytes}

theorem findIdx?_marker (rest : List Bytes) (hm : isMarker marker = true)
    (hfront : ∀ seg ∈ front, isMarker seg = false) :
    (front ++ marker :: rest).findIdx? isMarker = some front.length := by
  have hnone : front.findIdx? isMarker = none := by
    rw [findIdx?_eq_none_iff]
    exact hfront
  simp [findIdx?_cons, hnone, hm]

theorem getD_behind (front tail : List Bytes) (k : Nat) :
    (front ++ tail).getD (front.length + k) [] = tail.getD k [] := by
  rw [getD_eq_getElem?_getD, getElem?_append_right (Nat.le_add_right _ _),
    Nat.add_sub_cancel_left, getD_eq_getElem?_getD]

theorem refIn_eq {rest : List Bytes} (hm : isMarker marker = true)
    (hfront : ∀ seg ∈ front ++ [workspace, repo], isMarker seg = false) :
    refIn (front ++ workspace :: repo :: marker :: idText :: rest) =
      match parseInt usizeLimit idText with
      | none => .error .malformedUrl
      | some id => .ok ⟨workspace, repo, id⟩ := by
  have hidx := findIdx?_marker (idText :: rest) hm hfront
  have happ : front ++ [workspace, repo] ++ marker :: idText :: rest =
      front ++ workspace :: repo :: marker :: idText :: rest := by simp
  have hlen : (front ++ [workspace, repo]).length = front.length + 2 := by simp
  have hws : (front ++ workspace :: repo :: marker :: idText :: rest).getD (front.length + 2 - 2) [] =
      workspace := getD_behind front _ 0
  have hrepo : (front ++ workspace :: repo :: marker :: idText :: rest).getD (front.length + 2 - 1) [] =
      repo := getD_behind front _ 1
  have hid : (front ++ workspace :: repo :: marker :: idText :: rest).getD (front.length + 2 + 1) [] =
      idText := getD_behind front _ 3
  have hguard : ¬ (front.length + 2 < 2 ∨
      (front ++ workspace :: repo :: marker :: idText :: rest).length ≤ front.length + 2 + 1) := by
    simp
    omega
  rw [happ, hlen] at hidx
  unfold refIn
  rw [hidx]
  dsimp only
  rw [if_neg hguard, hws, hrepo, hid]

theorem refIn_located {id : Nat} (h : Located segs workspace repo idText)
    (hid : parseInt usizeLimit idText = some id) : refIn segs = .ok ⟨workspace, repo, id⟩ := by
  obtain ⟨front, marker, rest, rfl, hm, hfront⟩ := h
  rw [refIn_eq hm hfront, hid]

theorem exists_marker (segs : List Bytes) : segs.findIdx? isMarker = none ∨
    ∃ front marker rest, segs = front ++ marker :: rest ∧ isMarker marker = true ∧
      ∀ seg ∈ front, isMarker seg = false := by
  cases h : segs.find? isMarker with
  | none =>
    left
    rw [findIdx?_eq_none_iff]
    intro seg hseg
    simpa using find?_eq_none.mp h seg hseg
  | some marker =>
    right
    obtain ⟨hm, front, rest, hsegs, hfront⟩ := find?_eq_some_iff_append.mp h
    exact ⟨front, marker, rest, hsegs, hm, fun seg hseg => by simpa using hfront seg hseg⟩

theorem located_refIn (h : refIn segs = .ok ref) : ∃ idText,
    Located segs ref.workspace ref.repoSlug idText ∧ parseInt usizeLimit idText = some ref.id := by
  obtain hnone | ⟨front, marker, rest, rfl, hm, hfront⟩ := exists_marker segs
  · unfold refIn at h
    rw [hnone] at h
    cases h
  have hidx := findIdx?_marker rest hm hfront
  by_cases hguard : front.length < 2 ∨ (front ++ marker :: rest).length ≤ front.length + 1
  · unfold refIn at h
    rw [hidx] at h
    dsimp only at h
    rw [if_pos hguard] at h
    cases h
  · rw [not_or, length_append, length_cons] at hguard
    -- two segments before the marker, one behind it
    obtain ⟨front, repo, rfl⟩ := eq_nil_or_concat front |>.resolve_left (by
      rintro rfl
      simp at hguard)
    obtain ⟨front, workspace, rfl⟩ := eq_nil_or_concat front |>.resolve_left (by
      rintro rfl
      simp at hguard)
    obtain ⟨idText, rest, rfl⟩ := exists_cons_of_ne_nil (l := rest) (by
      rintro rfl
      simp at hguard)
    have happ : (front.concat workspace).concat repo ++ marker :: idText :: rest =
        front ++ workspace :: repo :: marker :: idText :: rest := by simp
    have hfront' : ∀ seg ∈ front ++ [workspace, repo], isMarker seg = false := by
      intro seg hseg
      exact hfront seg (by simpa using hseg)
    rw [happ, refIn_eq hm hfront'] at h
    cases hid : parseInt usizeLimit idText with
    | none =>
      rw [hid] at h
      cases h
    | some id =>
      rw [hid] at h
      cases h
      exact ⟨idText, ⟨front, marker, rest, happ, hm, hfront'⟩, hid⟩

theorem Located.unique {ws repo' idText' : Bytes} (h : Located segs workspace repo idText)
    (h' : Located segs ws repo' idText') : idText = idText' := by
  obtain ⟨front, marker, rest, rfl, hm, hfront⟩ := h
  obtain ⟨front', marker', rest', heq, hm', hfront'⟩ := h'
  have happ (f : List Bytes) (w r m t : Bytes) (rest : List Bytes) :
      f ++ w :: r :: m :: t :: rest = (f ++ [w, r]) ++ m :: t :: rest := by simp
  rw [happ, happ] at heq
  have hidx := findIdx?_marker (idText :: rest) hm hfront
  rw [heq, findIdx?_marker _ hm' hfront'] at hidx
  have hlen : (front ++ [workspace, repo]).length = (front' ++ [ws, repo']).length :=
    (Option.some.inj hidx).symm
  have htail := (append_inj heq hlen).2
  exact (cons.inj (cons.inj htail).2).1

theorem parse_ok (h : parse parseUri url = .ok ref) : ∃ uri host, parseUri url = some uri ∧
    uri.host = some host ∧ isBitbucketHost host = true ∧
    (segments uri.path).length ≤ maxSegments ∧ refIn (segments uri.path) = .ok ref := by
  unfold parse at h
  cases hu : parseUri url with
  | none =>
    rw [hu] at h
    cases h
  | some uri =>
    rw [hu] at h
    dsimp only at h
    cases hh : uri.host with
    | none =>
      rw [hh] at h
      cases h
    | some host =>
      rw [hh] at h
      dsimp only at h
      split at h
      · cases h
      split at h
      · cases h
      · next hb hmax =>
        exact ⟨uri, host, rfl, hh, by simpa using hb, Nat.le_of_not_lt hmax, h⟩

theorem padded_zero (width : Nat) : Http.padded width 0 = List.replicate width 0x30 := by
  induction width with
  | zero => rfl
  | succ width ih =>
    rw [Http.padded, Nat.zero_div, ih, replicate_succ']
    rfl

variable {n : Nat}

theorem positive_iff (h : DigitsOf idText n) : 1 ≤ n ↔ ∃ c ∈ idText, c ≠ 0x30 := by
  constructor
  · intro hpos
    apply Classical.byContradiction
    intro hall
    have hzeros : idText = replicate idText.length 0x30 :=
      eq_replicate_length.mpr (fun c hc => Classical.byContradiction (fun hne => hall ⟨c, hc, hne⟩))
    have hzero : DigitsOf idText 0 := ⟨h.1, Nat.pow_pos (by decide), hzeros.trans (padded_zero _).symm⟩
    have hn := h.unique hzero
    omega
  · rintro ⟨c, hc, hne⟩
    apply Nat.pos_of_ne_zero
    rintro rfl
    rw [h.2.2, padded_zero] at hc
    exact hne (eq_of_mem_replicate hc)

/-- An accepted URL is read faithfully exactly where the id is a positive number in plain digits. -/
theorem faithful_iff (h : parse parseUri url = .ok ref) : Faithful parseUri url ref ↔
    ∀ uri ws repo idText, parseUri url = some uri → Located (segments uri.path) ws repo idText →
      PositiveId idText := by
  obtain ⟨uri, host, hu, hh, hb, -, href⟩ := parse_ok h
  obtain ⟨idText, hloc, hid⟩ := located_refIn href
  have hcond : (∀ uri' ws repo idText', parseUri url = some uri' →
      Located (segments uri'.path) ws repo idText' → PositiveId idText') ↔ PositiveId idText := by
    constructor
    · intro hall
      exact hall uri _ _ idText hu hloc
    intro hpos uri' ws repo idText' hu' hloc'
    rw [hu] at hu'
    cases hu'
    exact hloc.unique hloc' ▸ hpos
  rw [hcond]
  constructor
  · rintro ⟨uri', host', idText', hu', -, -, hloc', hdigits, hpos⟩
    rw [hu] at hu'
    cases hu'
    obtain rfl := hloc.unique hloc'
    exact ⟨hdigits.not_marked, (positive_iff hdigits).mp hpos⟩
  · rintro ⟨hmark, hne⟩
    have hdigits := ((Http.parseInt_plain hmark).mp hid).1
    refine ⟨uri, host, idText, hu, hh, ?_, hloc, hdigits, (positive_iff hdigits).mpr hne⟩
    simpa [isBitbucketHost] using hb

theorem Form.host_ok (form : Form) : form.host ≠ [] ∧ (∀ c ∈ form.host, isHostByte c = true) ∧
    isBitbucketHost form.host = true := by
  cases form <;> decide +kernel

theorem Form.marker_ok (form : Form) : isMarker form.marker = true ∧ Slug form.marker ∧
    ∀ c ∈ form.marker, isPathByte c = true := by
  cases form <;> (unfold Slug; decide +kernel)

theorem Form.front_ok (form : Form) : ∀ seg ∈ form.front,
    isMarker seg = false ∧ Slug seg ∧ ∀ c ∈ seg, isPathByte c = true := by
  cases form <;> (unfold Slug; decide +kernel)

theorem parseUri_host (hu : SplitsUri parseUri) (form : Form) {rest : Bytes}
    (hrest : rest.head? = some slash) : parseUri (ascii "https://" ++ form.host ++ rest) =
      some ⟨some form.host, rest.takeWhile isPathByte⟩ := by
  obtain ⟨behind, rfl⟩ := head?_eq_some_iff.mp hrest
  obtain ⟨hne, hbytes, -⟩ := form.host_ok
  have hslash : isPathByte slash = true := by decide
  have hsplit := hu (ascii "https") form.host ((slash :: behind).takeWhile isPathByte)
    ((slash :: behind).dropWhile isPathByte) (by decide) (by decide +kernel) hne hbytes
    (.inr (by simp [hslash])) (all_eq_true.mp all_takeWhile) ?_
  · rw [append_assoc _ (takeWhile _ _), takeWhile_append_dropWhile] at hsplit
    exact hsplit
  · cases hd : (slash :: behind).dropWhile isPathByte with
    | nil => exact .inl rfl
    | cons c more =>
      have hc := head?_dropWhile_not isPathByte (slash :: behind)
      rw [hd] at hc
      exact .inr ⟨c, rfl, by simpa using hc⟩

theorem tailOf_stops (query fragment : Option Bytes) :
    (tailOf query fragment).takeWhile isPathByte = [] := by
  have hq : isPathByte question = false := by decide
  have hh : isPathByte hash = false := by decide
  cases query <;> cases fragment <;> simp [tailOf, hq, hh]

theorem segments_led (h : ∀ seg ∈ segs, slash ∉ seg) :
    segments (led slash segs) = segs.filter (fun seg => !seg.isEmpty) := by
  unfold segments
  rw [splitOn_led h]
  rfl

theorem digitsOf_bytes (h : DigitsOf idText n) :
    slash ∉ idText ∧ ∀ c ∈ idText, isPathByte c = true := by
  have hdigit : ∀ d < 10, Http.digit d ≠ slash ∧ isPathByte (Http.digit d) = true := by decide
  rw [h.2.2]
  constructor
  · intro hmem
    obtain ⟨d, hd, heq⟩ := Http.mem_padded hmem
    exact (hdigit d hd).1 heq.symm
  · intro c hc
    obtain ⟨d, hd, rfl⟩ := Http.mem_padded hc
    exact (hdigit d hd).2

variable {form : Form} {trailing : List Bytes} {query fragment : Option Bytes} {id : Nat}

section

variable (hws : Slug workspace) (hrepo : Slug repo) (hid : DigitsOf idText id)
include hws hrepo hid

theorem segments_ok (form : Form) (htrailing : ∀ seg ∈ trailing, Segment seg) :
    ∀ seg ∈ form.segments workspace repo idText trailing, slash ∉ seg ∧
      (seg ≠ workspace → seg ≠ repo → ∀ c ∈ seg, isPathByte c = true) := by
  obtain ⟨-, hmarker, hbytes⟩ := form.marker_ok
  intro seg hseg
  unfold Form.segments at hseg
  simp only [mem_append, mem_cons] at hseg
  obtain h | rfl | rfl | rfl | rfl | h := hseg
  · have hf := form.front_ok seg h
    exact ⟨hf.2.1.2, fun _ _ => hf.2.2⟩
  · exact ⟨hws.2, fun h => absurd rfl h⟩
  · exact ⟨hrepo.2, fun _ h => absurd rfl h⟩
  · exact ⟨hmarker.2, fun _ _ => hbytes⟩
  · have hd := digitsOf_bytes hid
    exact ⟨hd.1, fun _ _ => hd.2⟩
  · exact ⟨(htrailing seg h).1, fun _ _ => (htrailing seg h).2⟩

theorem filter_segments (form : Form) (trailing : List Bytes) :
    (form.segments workspace repo idText trailing).filter (fun seg => !seg.isEmpty) =
      form.front ++ workspace :: repo :: form.marker :: idText ::
        trailing.filter (fun seg => !seg.isEmpty) := by
  have hfront : form.front.filter (fun seg => !seg.isEmpty) = form.front := by
    apply filter_eq_self.mpr
    intro seg hseg
    simpa using (form.front_ok seg hseg).2.1.1
  have hmarker : form.marker ≠ [] := form.marker_ok.2.1.1
  unfold Form.segments
  rw [filter_append, hfront]
  simp [hws.1, hrepo.1, hmarker, hid.1]

/-- A documented form is read back exactly where the slugs end no path and look like no marker, and
the path has no more segments than the array. -/
theorem parse_form_iff (hu : SplitsUri parseUri) (hlt : id < usizeLimit)
    (htrailing : ∀ seg ∈ trailing, Segment seg) :
    parse parseUri (form.url workspace repo idText trailing query fragment) =
        .ok ⟨workspace, repo, id⟩ ↔
      Plain workspace ∧ Plain repo ∧
        form.front.length + 4 + (trailing.filter (fun seg => !seg.isEmpty)).length ≤ maxSegments := by
  have hsegs := segments_ok hws hrepo hid form htrailing
  have hfilter := filter_segments hws hrepo hid form trailing
  obtain ⟨hm, -, -⟩ := form.marker_ok
  have hsplit : parseUri (form.url workspace repo idText trailing query fragment) =
      some ⟨some form.host, (led slash (form.segments workspace repo idText trailing) ++
        tailOf query fragment).takeWhile isPathByte⟩ := by
    unfold Form.url
    rw [append_assoc _ (led slash _)]
    apply parseUri_host hu
    cases form <;> rfl
  have hwhole (hclean : ∀ c ∈ workspace ++ repo, isPathByte c = true) :
      (led slash (form.segments workspace repo idText trailing) ++
        tailOf query fragment).takeWhile isPathByte =
      led slash (form.segments workspace repo idText trailing) := by
    rw [takeWhile_append_of_pos, tailOf_stops, append_nil]
    intro c hc
    unfold led at hc
    rw [mem_flatMap] at hc
    obtain ⟨seg, hseg, hc⟩ := hc
    rw [mem_cons] at hc
    obtain rfl | hc := hc
    · decide
    by_cases hw : seg = workspace
    · exact hclean c (by simp [hw ▸ hc])
    · by_cases hr : seg = repo
      · exact hclean c (by simp [hr ▸ hc])
      · exact (hsegs seg hseg).2 hw hr c hc
  constructor
  · intro h
    obtain ⟨uri, host, hu', -, -, hmax, href⟩ := parse_ok h
    rw [hsplit] at hu'
    cases hu'
    obtain ⟨idText', ⟨front, marker, rest, hpath, -, hfront⟩, -⟩ := located_refIn href
    -- what was found is part of the path
    have hclean (slug : Bytes) (hslug : slug = workspace ∨ slug = repo) :
        ∀ c ∈ slug, isPathByte c = true := by
      intro c hc
      have hmem : slug ∈ segments ((led slash (form.segments workspace repo idText trailing) ++
          tailOf query fragment).takeWhile isPathByte) := by
        rw [hpath]
        obtain rfl | rfl := hslug <;> simp
      have hin := mem_of_mem_splitOn (mem_filter.mp hmem).1 hc
      exact all_eq_true.mp all_takeWhile c hin
    refine ⟨⟨hclean _ (.inl rfl), hfront _ (by simp)⟩, ⟨hclean _ (.inr rfl), hfront _ (by simp)⟩, ?_⟩
    have hboth : ∀ c ∈ workspace ++ repo, isPathByte c = true := by
      intro c hc
      exact (mem_append.mp hc).elim (hclean _ (.inl rfl) c) (hclean _ (.inr rfl) c)
    rw [hwhole hboth, segments_led (fun seg hseg => (hsegs seg hseg).1), hfilter] at hmax
    simp only [length_append, length_cons] at hmax
    omega
  · rintro ⟨⟨hcw, hmw⟩, ⟨hcr, hmr⟩, hmax⟩
    have hboth : ∀ c ∈ workspace ++ repo, isPathByte c = true := by
      intro c hc
      exact (mem_append.mp hc).elim (hcw c) (hcr c)
    have hloc : Located (form.front ++ workspace :: repo :: form.marker :: idText ::
        trailing.filter (fun seg => !seg.isEmpty)) workspace repo idText := by
      refine ⟨_, _, _, rfl, hm, ?_⟩
      intro seg hseg
      simp only [mem_append, mem_cons, not_mem_nil, or_false] at hseg
      obtain hf | rfl | rfl := hseg
      · exact (form.front_ok seg hf).1
      · exact hmw
      · exact hmr
    have hread := refIn_located hloc ((Http.parseInt_plain hid.not_marked).mpr ⟨hid, hlt⟩)
    have hlen : ¬ maxSegments < (form.front ++ workspace :: repo :: form.marker :: idText ::
        trailing.filter (fun seg => !seg.isEmpty)).length := by
      simp only [length_append, length_cons]
      omega
    unfold parse
    rw [hsplit]
    dsimp only
    rw [if_neg (by simp [form.host_ok.2.2]), hwhole hboth,
      segments_led (fun seg hseg => (hsegs seg hseg).1), hfilter, if_neg hlen]
    exact hread

end

/-- The documented forms are read back, and what is read is what the URL says, each exactly where
nothing in the path is mistaken. -/
theorem parse_grammar (hu : SplitsUri parseUri) :
    (∀ (form : Form) (workspace repo idText : Bytes) (trailing : List Bytes)
      (query fragment : Option Bytes) (id : Nat), Slug workspace → Slug repo → DigitsOf idText id →
      1 ≤ id → id < usizeLimit → (∀ seg ∈ trailing, Segment seg) →
      (parse parseUri (form.url workspace repo idText trailing query fragment) =
          .ok ⟨workspace, repo, id⟩ ↔
        Plain workspace ∧ Plain repo ∧
          form.front.length + 4 + (trailing.filter (fun seg => !seg.isEmpty)).length ≤
            maxSegments)) ∧
      ∀ url ref, parse parseUri url = .ok ref → (Faithful parseUri url ref ↔
        ∀ uri ws repo idText, parseUri url = some uri →
          Located (segments uri.path) ws repo idText → PositiveId idText) := by
  constructor
  · intro form workspace repo idText trailing query fragment id hws hrepo hid _ hlt htrailing
    exact parse_form_iff hws hrepo hid hu hlt htrailing
  · intro url ref h
    exact faithful_iff h

def isAuthorityByte (c : UInt8) : Bool := c != slash && isPathByte c

/-- The host of an authority, without user information and port. -/
def hostOf (authority : Bytes) : Bytes :=
  let behind := if authority.contains 0x40 then (authority.dropWhile (fun c => c != 0x40)).drop 1
    else authority
  behind.takeWhile (fun c => c != 0x3a)

def splitUri (text : Bytes) : Option Uri :=
  match text.dropWhile isSchemeByte with
  | 0x3a :: rest =>
    if (ascii "//").isPrefixOf rest then
      some ⟨some (hostOf ((rest.drop 2).takeWhile isAuthorityByte)),
        ((rest.drop 2).dropWhile isAuthorityByte).takeWhile isPathByte⟩
    else some ⟨none, rest.takeWhile isPathByte⟩
  | _ => none

theorem hostOf_plain {host : Bytes} (h : ∀ c ∈ host, isHostByte c = true) : hostOf host = host := by
  have hat : host.contains 0x40 = false := by
    rw [Bool.eq_false_iff]
    intro hc
    exact absurd (h _ (contains_iff_mem.mp hc)) (by decide)
  have hcolon : ∀ c ∈ host, (c != 0x3a) = true := by
    intro c hc
    rw [bne_iff_ne]
    rintro rfl
    exact absurd (h _ hc) (by decide)
  unfold hostOf
  rw [hat]
  exact takeWhile_eq_self_iff.mpr hcolon

theorem isAuthorityByte_host {c : UInt8} (h : isHostByte c = true) : isAuthorityByte c = true := by
  have hne (d : UInt8) (hd : isHostByte d = false) : c ≠ d := by
    rintro rfl
    simp [hd] at h
  have hslash := hne slash (by decide)
  have hquestion := hne question (by decide)
  have hhash := hne hash (by decide)
  simp [isAuthorityByte, isPathByte, hslash, hquestion, hhash]

theorem splitUri_splits : SplitsUri splitUri := by
  intro scheme host path tail _ hscheme _ hhost hslash hpath htail
  have hcolon : isSchemeByte 0x3a = false := by decide
  have hdrop : (scheme ++ ascii "://" ++ host ++ path ++ tail).dropWhile isSchemeByte =
      0x3a :: (ascii "//" ++ (host ++ (path ++ tail))) := by
    simp only [append_assoc]
    rw [dropWhile_append_of_pos hscheme]
    change dropWhile isSchemeByte (0x3a :: (ascii "//" ++ _)) = _
    simp [hcolon]
  have hstop : (path ++ tail).takeWhile isAuthorityByte = [] ∧
      (path ++ tail).dropWhile isAuthorityByte = path ++ tail := by
    have hhead : ∀ c ∈ (path ++ tail).head?, isAuthorityByte c = false := by
      intro c hc
      obtain rfl | hslash := hslash
      · obtain rfl | ⟨d, hd, hno⟩ := htail
        · simp at hc
        · obtain rfl : d = c := Option.some.inj (Eq.trans hd.symm hc)
          simp [isAuthorityByte, hno]
      · obtain ⟨behind, rfl⟩ := head?_eq_some_iff.mp hslash
        obtain rfl : slash = c := Option.some.inj hc
        decide
    cases hpt : path ++ tail with
    | nil => simp
    | cons c more =>
      have hc := hhead c (by simp [hpt])
      simp [hc]
  have htake : (path ++ tail).takeWhile isPathByte = path := by
    rw [takeWhile_append_of_pos hpath]
    obtain rfl | ⟨c, hc, hno⟩ := htail
    · simp
    cases tail with
    | nil => simp at hc
    | cons d more =>
      cases hc
      simp [hno]
  have hauth := fun c hc => isAuthorityByte_host (hhost c hc)
  unfold splitUri
  rw [hdrop]
  change some (Uri.mk (some (hostOf ((host ++ (path ++ tail)).takeWhile isAuthorityByte)))
    (((host ++ (path ++ tail)).dropWhile isAuthorityByte).takeWhile isPathByte)) = _
  rw [takeWhile_append_of_pos hauth, dropWhile_append_of_pos hauth, hstop.1, hstop.2, htake,
    append_nil, hostOf_plain hhost]

/-- A pasted URL with a trailing segment, a query and a fragment. -/
theorem parse_grammar_pasted :
    parse splitUri (ascii "https://bitbucket.org/check24/pr-webapp/pull-requests/1726/diff?w=1#c-42") =
      .ok ⟨ascii "check24", ascii "pr-webapp", 1726⟩ := by
  exact ((parse_grammar splitUri_splits).1 .web (ascii "check24") (ascii "pr-webapp") (ascii "1726")
    [ascii "diff"] (some (ascii "w=1")) (some (ascii "c-42")) 1726 (by unfold Slug; decide +kernel)
    (by unfold Slug; decide +kernel) (by unfold DigitsOf; decide +kernel) (by decide) (by decide)
    (by unfold Segment; decide +kernel)).mpr (by unfold Plain; decide +kernel)

/-- A repository that looks like the marker, and an id that is not positive. -/
theorem parse_grammar_mistaken : (¬ ∀ parseUri, SplitsUri parseUri → ReadsForms parseUri) ∧
    ¬ ∀ parseUri, SplitsUri parseUri → ReadsFaithfully parseUri := by
  constructor
  · intro h
    have hread := h splitUri splitUri_splits .web (ascii "ws") (ascii "pull-requests") (ascii "5") []
      none none 5 (by unfold Slug; decide +kernel) (by unfold Slug; decide +kernel)
      (by unfold DigitsOf; decide +kernel) (by decide) (by decide) (by simp)
    exact absurd hread (by decide +kernel)
  · intro h
    have hread : parse splitUri (ascii "https://bitbucket.org/ws/repo/pull-requests/0") =
        .ok ⟨ascii "ws", ascii "repo", 0⟩ := by decide +kernel
    obtain ⟨-, -, -, -, -, -, -, -, hpos⟩ := h splitUri splitUri_splits _ _ hread
    exact absurd hpos (by decide)

end Bbr.Bitbucket.Url

import Bbr.Bitbucket.AuthLines
import Bbr.Lib.Results

/-!
# What is written is read back

A file is written as lines, and each profile that is written is put into the profiles that are read.
-/
namespace Bbr.Bitbucket.Auth

open List Bbr.Lib

open Bbr.Diff (ascii joinRows)

def fieldLines (key value : Bytes) : List Bytes := if value = [] then [] else [fieldLine key value]

def profileLines (p : NamedProfile) : List Bytes :=
  [] :: headerLine p.name :: (fieldLines keyUsername p.username ++
    (fieldLines keyToken p.token ++ fieldLines keyWorkspace p.workspace))

def fileLines (activeProfile : Bytes) (profiles : List NamedProfile) : List Bytes :=
  fieldLine keyActive activeProfile :: profiles.flatMap profileLines

/-- A profile that can be written. -/
structure Writable (p : NamedProfile) : Prop where
  name : isValidProfileName p.name = true
  username : Clean p.username
  token : Clean p.token
  workspace : Clean p.workspace

theorem clean_nil : Clean [] := by simp [Clean]

variable {key value : Bytes}

theorem writeField_eq (h : Clean value) :
    writeField key value = .ok (joinRows (fieldLines key value)) := by
  rw [writeField, fieldLines]
  split
  · rfl
  · rw [escapeInto_eq h, ok_bind]
    simp [joinRows, fieldLine, ascii, pure, Except.pure, doubleQuote, Diff.newline]

variable {p : NamedProfile}

theorem writeProfile_eq (h : Writable p) : writeProfile p = .ok (joinRows (profileLines p)) := by
  have hheader : ascii "\n[profiles." ++ p.name ++ ascii "]\n" =
      joinRows [[], headerLine p.name] := by
    simp [joinRows, headerLine, ascii, closeBracket, Diff.newline]
  rw [writeProfile, h.name, writeField_eq h.username, writeField_eq h.token,
    writeField_eq h.workspace, hheader]
  simp [ok_bind, profileLines, joinRows, pure, Except.pure]

theorem clean_of_valid {name : Bytes} (h : isValidProfileName name = true) : Clean name := by
  have hbyte : ∀ c, isWordByte c = true → isForbiddenStringByte c = false :=
    Diff.forall_byte (by decide +kernel)
  exact fun c hc => hbyte c ((word_of_valid h).2 c hc)

variable {α : Type}

theorem joinRows_flatten (f : α → List Bytes) (l : List α) :
    (l.map (fun a => joinRows (f a))).flatten = joinRows (l.flatMap f) := by
  induction l with
  | nil => rfl
  | cons a l ih => rw [map_cons, flatten_cons, ih, flatMap_cons, joinRows, joinRows,
      ← flatMap_append, joinRows]

variable {activeProfile : Bytes} {profiles : List NamedProfile}

theorem serialize_eq (hactive : isValidProfileName activeProfile = true)
    (h : ∀ p ∈ profiles, Writable p) :
    serialize activeProfile profiles = .ok (joinRows (fileLines activeProfile profiles)) := by
  have hfirst : ascii "active_profile = \"" ++ escape activeProfile ++ ascii "\"\n" =
      joinRows [fieldLine keyActive activeProfile] := by
    simp [joinRows, fieldLine, keyActive, ascii, doubleQuote, Diff.newline]
  rw [serialize, hactive, escapeInto_eq (clean_of_valid hactive),
    mapM_map_iff.mpr (fun p hp => writeProfile_eq (h p hp))]
  simp only [Bool.not_true, Bool.false_eq_true, if_false, ok_bind, hfirst, joinRows_flatten]
  simp [joinRows, fileLines, pure, Except.pure]

variable {source : Bytes}

/-- A field that is not empty is set in the open profile. -/
def State.fill (self : State) (key value : Bytes) : State :=
  if value = [] then self
  else match self.table with
    | .profile index => { self with
        profiles := self.profiles.modify index (fun p => p.set key value) }
    | _ => self

/-- The profile is declared and its fields are set. -/
def State.put (self : State) (p : NamedProfile) : State :=
  (((self.declare p.name).fill keyUsername p.username).fill keyToken p.token).fill keyWorkspace
    p.workspace

def IsField (key : Bytes) : Prop := key = keyUsername ∨ key = keyToken ∨ key = keyWorkspace

theorem IsField.word {key : Bytes} (h : IsField key) : Word key := by
  obtain rfl | rfl | rfl := h
  · exact ⟨by decide, by decide +kernel⟩
  · exact ⟨by decide, by decide +kernel⟩
  · exact ⟨by decide, by decide +kernel⟩

variable {state : State} {rest : List Bytes}

theorem declare_table (state : State) (name : Bytes) :
    ∃ index, (state.declare name).table = .profile index := by
  rw [State.declare]
  split
  · exact ⟨_, rfl⟩
  · exact ⟨_, rfl⟩

theorem fill_table (state : State) (key value : Bytes) :
    (state.fill key value).table = state.table := by
  rw [State.fill]
  split
  · rfl
  · split <;> rfl

theorem parseLines_fieldLines (hkey : IsField key) (hvalue : Clean value)
    {index : Nat} (htable : state.table = .profile index) :
    parseLines (fieldLines key value ++ rest) state = parseLines rest (state.fill key value) := by
  rw [fieldLines, State.fill]
  by_cases hempty : value = []
  · rw [if_pos hempty, if_pos hempty]
    rfl
  have hknown : state.table.knows key = true := by
    rw [htable]
    obtain rfl | rfl | rfl := hkey <;> rfl
  rw [if_neg hempty, if_neg hempty, singleton_append,
    parseLines_fieldLine hkey.word hvalue hknown, setKnown, if_neg hempty, htable]

theorem parseLines_profileLines (h : Writable p) :
    parseLines (profileLines p ++ rest) state = parseLines rest (state.put p) := by
  obtain ⟨index, hindex⟩ := declare_table state p.name
  rw [profileLines, cons_append, parseLines_blank, cons_append,
    parseLines_headerLine h.name, append_assoc, append_assoc,
    parseLines_fieldLines (.inl rfl) h.username hindex,
    parseLines_fieldLines (.inr (.inl rfl)) h.token (by rw [fill_table, hindex]),
    parseLines_fieldLines (.inr (.inr rfl)) h.workspace (by rw [fill_table, fill_table, hindex])]
  rfl

theorem parseLines_profiles (h : ∀ p ∈ profiles, Writable p) :
    parseLines (profiles.flatMap profileLines ++ rest) state =
      parseLines rest (profiles.foldl State.put state) := by
  induction profiles generalizing state with
  | nil => rfl
  | cons p profiles ih =>
    rw [flatMap_cons, append_assoc, parseLines_profileLines (h p mem_cons_self),
      ih (fun q hq => h q (mem_cons_of_mem _ hq)), foldl_cons]

theorem parseLines_fileLines (hactive : isValidProfileName activeProfile = true)
    (h : ∀ p ∈ profiles, Writable p) :
    parseLines (fileLines activeProfile profiles ++ [[]]) {} =
      .ok (profiles.foldl State.put { active := some activeProfile }) := by
  have hword : Word keyActive := ⟨by decide, by decide +kernel⟩
  have hne : activeProfile ≠ [] := (word_of_valid hactive).1
  rw [fileLines, cons_append,
    parseLines_fieldLine hword (clean_of_valid hactive) (by decide), setKnown, if_neg hne]
  simp only [hactive, Bool.not_true, Bool.false_eq_true, if_false]
  rw [parseLines_profiles h, parseLines_blank, parseLines]

theorem newline_not_mem_fieldLine (hkey : Word key) (h : Clean value) :
    newline ∉ fieldLine key value := by
  have hword : newline ∉ key := fun hmem => isWordByte_ne (hkey.2 _ hmem) (by decide) rfl
  have hescape := newline_not_mem_escape h
  simp only [fieldLine, mem_append, mem_cons, not_or]
  exact ⟨hword, by decide, by decide, hescape, by decide⟩

theorem newline_not_mem_fieldLines (hkey : IsField key) (h : Clean value) :
    ∀ line ∈ fieldLines key value, newline ∉ line := by
  intro line hline
  rw [fieldLines] at hline
  split at hline
  · simp at hline
  · rw [mem_singleton.mp hline]
    exact newline_not_mem_fieldLine hkey.word h

theorem newline_not_mem_headerLine {name : Bytes} (h : Word name) : newline ∉ headerLine name := by
  have hname : newline ∉ name := fun hmem => isWordByte_ne (h.2 _ hmem) (by decide) rfl
  simp only [headerLine, mem_append, not_or]
  exact ⟨by decide, hname, by decide⟩

theorem newline_not_mem_profileLines (h : Writable p) : ∀ line ∈ profileLines p, newline ∉ line := by
  intro line hline
  simp only [profileLines, mem_cons, mem_append] at hline
  obtain rfl | rfl | hline | hline | hline := hline
  · simp
  · exact newline_not_mem_headerLine (word_of_valid h.name)
  · exact newline_not_mem_fieldLines (.inl rfl) h.username line hline
  · exact newline_not_mem_fieldLines (.inr (.inl rfl)) h.token line hline
  · exact newline_not_mem_fieldLines (.inr (.inr rfl)) h.workspace line hline

theorem parse_fileLines (hactive : isValidProfileName activeProfile = true)
    (h : ∀ p ∈ profiles, Writable p) :
    parse (joinRows (fileLines activeProfile profiles)) =
      .ok ⟨(profiles.foldl State.put { active := some activeProfile }).active.getD defaultProfile,
        (profiles.foldl State.put { active := some activeProfile }).profiles⟩ := by
  have hsplit : (joinRows (fileLines activeProfile profiles)).splitOn newline =
      fileLines activeProfile profiles ++ [[]] := by
    refine Diff.splitOn_joinRows (fun line hline => ?_)
    rw [fileLines, mem_cons, mem_flatMap] at hline
    obtain rfl | ⟨p, hp, hline⟩ := hline
    · exact newline_not_mem_fieldLine ⟨by decide, by decide +kernel⟩ (clean_of_valid hactive)
    · exact newline_not_mem_profileLines (h p hp) line hline
  rw [parse, hsplit, parseLines_fileLines hactive h]
  rfl

theorem fill_active (state : State) (key value : Bytes) :
    (state.fill key value).active = state.active := by
  rw [State.fill]
  split
  · rfl
  · split <;> rfl

theorem put_active (state : State) (p : NamedProfile) : (state.put p).active = state.active := by
  rw [State.put, fill_active, fill_active, fill_active, State.declare]
  split <;> rfl

theorem foldl_put_active (profiles : List NamedProfile) (state : State) :
    (profiles.foldl State.put state).active = state.active := by
  induction profiles generalizing state with
  | nil => rfl
  | cons p profiles ih => rw [foldl_cons, ih, put_active]

theorem modify_last (front : List α) (a : α) (f : α → α) :
    (front ++ [a]).modify front.length f = front ++ [f a] := by
  simp [modify_eq_take_drop]

theorem fill_last {front : List NamedProfile} {p : NamedProfile} (key value : Bytes)
    (h : state.profiles = front ++ [p]) (htable : state.table = .profile front.length) :
    (state.fill key value).profiles =
      front ++ [if value = [] then p else p.set key value] := by
  rw [State.fill]
  split
  · exact h
  · rw [htable]
    simp only [h]
    exact modify_last _ _ _

theorem put_new (h : ∀ q ∈ state.profiles, q.name ≠ p.name) :
    (state.put p).profiles = state.profiles ++ [p] := by
  have hnone : findIndex state.profiles p.name = none := by
    rw [findIndex, findIdx?_eq_none_iff]
    intro q hq
    simpa using h q hq
  have hdeclare : state.declare p.name = { state with
      profiles := state.profiles ++ [{ name := p.name }]
      table := .profile state.profiles.length } := by
    rw [State.declare, hnone]
  have husername := @fill_last (state.declare p.name) state.profiles { name := p.name } keyUsername
    p.username (by rw [hdeclare]) (by rw [hdeclare])
  have htoken := fill_last keyToken p.token husername (by rw [fill_table, hdeclare])
  have hworkspace := fill_last keyWorkspace p.workspace htoken
    (by rw [fill_table, fill_table, hdeclare])
  rw [State.put, hworkspace]
  have hkeys : keyToken ≠ keyUsername ∧ keyWorkspace ≠ keyUsername ∧ keyWorkspace ≠ keyToken := by
    decide
  obtain ⟨name, username, token, workspace⟩ := p
  by_cases h1 : username = [] <;> by_cases h2 : token = [] <;> by_cases h3 : workspace = [] <;>
    simp [NamedProfile.set, hkeys, h1, h2]

theorem foldl_put_new {profiles : List NamedProfile}
    (h : (state.profiles ++ profiles).Pairwise (fun p q => p.name ≠ q.name)) :
    (profiles.foldl State.put state).profiles = state.profiles ++ profiles := by
  induction profiles generalizing state with
  | nil => simp
  | cons p profiles ih =>
    have hfresh : ∀ q ∈ state.profiles, q.name ≠ p.name := fun q hq =>
      (pairwise_append.mp h).2.2 q hq p mem_cons_self
    have hput := put_new hfresh
    rw [foldl_cons, ih (by rw [hput]; simpa using h), hput]
    simp

/-- Profiles that a file can hold. -/
structure Profiles (profiles : List NamedProfile) : Prop where
  writable : ∀ p ∈ profiles, Writable p
  distinct : profiles.Pairwise (fun p q => p.name ≠ q.name)

theorem parse_serialize (hactive : isValidProfileName activeProfile = true) (h : Profiles profiles) :
    ∃ source, serialize activeProfile profiles = .ok source ∧
      parse source = .ok ⟨activeProfile, profiles⟩ := by
  refine ⟨_, serialize_eq hactive h.writable, ?_⟩
  have hput := @foldl_put_new { active := some activeProfile } profiles (by simpa using h.distinct)
  rw [parse_fileLines hactive h.writable, foldl_put_active, hput]
  simp

variable {state' : State} {file : AuthFile} {raw : Bytes} {lines : List Bytes}

theorem Profiles.distinct_append {p : NamedProfile} (h : Profiles profiles)
    (hnew : ∀ q ∈ profiles, q.name ≠ p.name) :
    (profiles ++ [p]).Pairwise (fun p q => p.name ≠ q.name) := by
  rw [pairwise_append]
  refine ⟨h.distinct, pairwise_singleton _ _, fun q hq r hr => ?_⟩
  rw [mem_singleton.mp hr]
  exact hnew q hq

theorem Profiles.modify {f : NamedProfile → NamedProfile} (h : Profiles profiles)
    (hname : ∀ p, (f p).name = p.name) (hf : ∀ p, Writable p → Writable (f p)) (index : Nat) :
    Profiles (profiles.modify index f) := by
  have hnames : (profiles.modify index f).map NamedProfile.name = profiles.map NamedProfile.name := by
    refine ext_getElem? (fun i => ?_)
    rw [getElem?_map, getElem?_modify, getElem?_map]
    split <;> cases profiles[i]? <;> simp [hname]
  refine ⟨fun q hq => ?_, pairwise_map.mp (hnames ▸ pairwise_map.mpr h.distinct)⟩
  obtain ⟨i, hi⟩ := mem_iff_getElem?.mp hq
  rw [getElem?_modify] at hi
  obtain ⟨p, hp, rfl⟩ := Option.map_eq_some_iff.mp hi
  have hw := h.writable p (mem_of_getElem? hp)
  split
  · exact hf p hw
  · exact hw

theorem unescape_clean (h : unescape raw = some value) : Clean value := by
  fun_induction unescape raw generalizing value with
  | case2 => exact Option.some.inj h ▸ clean_nil
  | case5 =>
    rename_i hd _ ih
    obtain ⟨tail, htail, rfl⟩ := Option.map_eq_some_iff.mp h
    refine forall_mem_cons.mpr ⟨?_, ih htail⟩
    rcases hd with rfl | rfl <;> rfl
  | case8 =>
    rename_i hc ih
    obtain ⟨tail, htail, rfl⟩ := Option.map_eq_some_iff.mp h
    exact forall_mem_cons.mpr ⟨eq_false_of_ne_true hc, ih htail⟩
  | case1 | case3 | case4 | case6 | case7 => cases h

theorem parseBasicString_clean (h : parseBasicString raw = some value) : Clean value := by
  cases raw with
  | nil => cases h
  | cons c rest => exact unescape_clean (Option.ite_none_right_eq_some.mp h).2

/-- What the lines read so far have said can be written. -/
structure State.Sound (s : State) : Prop where
  active : ∀ name ∈ s.active, isValidProfileName name = true
  profiles : Profiles s.profiles

theorem openTable_sound {header : Bytes} (h : openTable state header = .ok state')
    (hs : state.Sound) : state'.Sound := by
  unfold openTable at h
  split at h
  · dsimp only at h
    split at h
    · cases h
    rename_i hname
    split at h
    · cases h
      exact ⟨hs.active, hs.profiles⟩
    rename_i hnone
    cases h
    refine ⟨hs.active, ⟨fun p hp => ?_, hs.profiles.distinct_append (fun p hp => ?_)⟩⟩
    · rcases mem_append.mp hp with hp | hp
      · exact hs.profiles.writable p hp
      · rw [mem_singleton.mp hp]
        exact ⟨by simpa using hname, clean_nil, clean_nil, clean_nil⟩
    · simpa using findIdx?_eq_none_iff.mp hnone p hp
  · cases h
    exact ⟨hs.active, hs.profiles⟩

theorem Writable.set {p : NamedProfile} (key : Bytes) (hvalue : Clean value)
    (h : Writable p) : Writable (p.set key value) := by
  unfold NamedProfile.set
  split
  · exact { h with username := hvalue }
  split
  · exact { h with token := hvalue }
  · exact { h with workspace := hvalue }

theorem NamedProfile.set_name (p : NamedProfile) (key : Bytes) : (p.set key value).name = p.name := by
  unfold NamedProfile.set
  repeat' split
  all_goals rfl

theorem setKnown_sound {key : Bytes} (h : setKnown state key value = .ok state')
    (hvalue : Clean value) (hs : state.Sound) : state'.Sound := by
  unfold setKnown at h
  split at h
  · cases h
  split at h
  · split at h
    · cases h
    rename_i hname
    cases h
    refine ⟨fun name hsome => ?_, hs.profiles⟩
    cases hsome
    simpa using hname
  · cases h
    exact ⟨hs.active, hs.profiles.modify (fun p => p.set_name key) (fun _ hw => hw.set key hvalue) _⟩
  · cases h
    exact hs

theorem parseLines_sound (h : parseLines lines state = .ok state') (hs : state.Sound) :
    state'.Sound := by
  fun_induction parseLines lines state with
  | case1 => exact Except.ok.inj h ▸ hs
  | case5 =>
    rename_i hopen ih
    exact ih h (openTable_sound hopen hs)
  | case13 =>
    rename_i hvalue _ hset ih
    exact ih h (setKnown_sound hset (parseBasicString_clean hvalue) hs)
  | case2 | case6 | case10 =>
    rename_i ih
    exact ih h hs
  | _ => cases h

/-- Whatever file is accepted can be written again, and is read back as it was. -/
theorem serialize_accepted (h : parse source = .ok file) :
    ∃ text, serialize file.activeProfile file.profiles = .ok text ∧ parse text = .ok file := by
  obtain ⟨state, hstate, hfile⟩ := bind_ok h
  cases hfile
  have hs := parseLines_sound hstate ⟨by simp, ⟨by simp, .nil⟩⟩
  have hactive : isValidProfileName (state.active.getD defaultProfile) = true := by
    cases hc : state.active with
    | none => decide
    | some name => exact hs.active name hc
  exact parse_serialize hactive hs.profiles

/-- A file somebody wrote, with a comment, an unknown table and a header twice. -/
def handWritten : Bytes :=
  ascii "# mine\nactive_profile = \"work\"\n[theme]\nname = \"dark\"\n" ++
    ascii "[profiles.work]\nusername = \"me\" # a#b\n[profiles.work]\ntoken = \"a#=\"\n"

def handWrittenFile : AuthFile where
  activeProfile := ascii "work"
  profiles := [{ name := ascii "work", username := ascii "me", token := ascii "a#=" }]

theorem serialize_accepted_handWritten : parse handWritten = .ok handWrittenFile ∧
    ∃ text, serialize handWrittenFile.activeProfile handWrittenFile.profiles = .ok text ∧
      parse text = .ok handWrittenFile := by
  have hparse : parse handWritten = .ok handWrittenFile := by decide +kernel
  exact ⟨hparse, serialize_accepted hparse⟩

end Bbr.Bitbucket.Auth

/-
  VivadoServer.Sessions.Stat

  Looking for live members of a process group in `/proc` (`group_has_live_members` and
  `parse_stat` of `src/session/process.rs`).  A process chooses its own name, and the
  name stands in the line in front of all that counts; but the last parenthesis is the
  kernel's own.
-/

import VivadoServer.Lib.Json
import VivadoServer.Sessions.Process

namespace VivadoServer.Sessions

open Json (Bytes)

/-! ## Reading a line -/

def ENOENT : Nat := 2

def malformed : IoError := ⟨none, "malformed /proc process stat"⟩

/-- `rposition` of a byte, and the bytes after it. -/
def afterLast (b : UInt8) (bytes : Bytes) : Option Bytes :=
  if b ∈ bytes then some (bytes.reverse.takeWhile (· != b)).reverse else none

/-- `str::from_utf8`. -/
def strFromUtf8 (bytes : Bytes) : Option Text := (String.fromUTF8? bytes.toByteArray).map String.toList

def isAsciiWhitespace (ch : Char) : Bool :=
  [' ', '\t', '\n', '\r', Char.ofNat 0x0c].contains ch

def splitAsciiWhitespace (text : Text) : List Text :=
  (text.splitOnP isAsciiWhitespace).filter (· ≠ [])

/-- The digits of a number in base ten, at least one. -/
def parseDigits (text : Text) : Option Nat :=
  if text ≠ [] ∧ text.all Char.isDigit then some (Nat.ofDigitChars 10 text 0) else none

/-- `parse::<i32>`. -/
def parseI32 (text : Text) : Option Int :=
  let value : Option Int := match text with
    | '-' :: digits => (parseDigits digits).map fun (n : Nat) => -(n : Int)
    | '+' :: digits => (parseDigits digits).map fun (n : Nat) => (n : Int)
    | digits => (parseDigits digits).map fun (n : Nat) => (n : Int)
  value.filter fun n => -2 ^ 31 ≤ n ∧ n < 2 ^ 31

/-- `parse::<usize>`. -/
def parseUsize (text : Text) : Option Nat :=
  let value := match text with
    | '+' :: digits => parseDigits digits
    | digits => parseDigits digits
  value.filter fun n => n < 2 ^ 64

/-- `ok_or_else(malformed)`. -/
def orMalformed {α : Type} (value : Option α) : Result α :=
  match value with
  | some x => .ok x
  | none => .error malformed

def parseStat (bytes : Bytes) : Result (Int × Bool) := do
  let rest ← orMalformed (afterLast 41 bytes)
  let tail ← orMalformed (strFromUtf8 rest)
  let fields := splitAsciiWhitespace tail
  let state ← orMalformed fields.head?
  let pgid ← orMalformed (fields[2]?.bind parseI32)
  let threads ← orMalformed (fields[17]?.bind parseUsize)
  let live := !([['Z'], ['X'], ['x']].contains state) || decide (1 < threads)
  return (pgid, live)

/-- What the scan meets in `/proc`: a name, and what reading its `stat` gives. -/
structure ProcEntry where
  name : Bytes
  stat : Result Bytes

/-- The process has gone while it was looked at. -/
def IoError.vanished (error : IoError) : Bool := error.code == some ENOENT || error.code == some ESRCH

def isAsciiDigit (b : UInt8) : Bool := 48 ≤ b && b ≤ 57

/-- The loop over the entries of the directory. -/
def scanGroup (pgid : Int) : List (Result ProcEntry) → Result Bool
  | [] => .ok false
  | .error error :: _ => .error error
  | .ok entry :: rest =>
    if !entry.name.all isAsciiDigit then scanGroup pgid rest
    else match entry.stat with
      | .error error => if error.vanished then scanGroup pgid rest else .error error
      | .ok bytes =>
        match parseStat bytes with
        | .error error => .error error
        | .ok (group, live) => if group = pgid ∧ live = true then .ok true else scanGroup pgid rest

/-- `group_has_live_members`, where `proc` is what `read_dir` gives. -/
def groupHasLiveMembers (pgid : Int) (proc : Result (List (Result ProcEntry))) : Result Bool :=
  match proc with
  | .error error => .error error
  | .ok entries => scanGroup pgid entries

/-! ## The line of the kernel -/

def decimal (n : Int) : Text :=
  match n with
  | .ofNat k => Nat.toDigits 10 k
  | .negSucc k => '-' :: Nat.toDigits 10 (k + 1)

def encode (text : Text) : Bytes := text.flatMap String.utf8EncodeChar

/-- What the kernel tells of a process; the fields are all but those with a name here. -/
structure ProcStat where
  pid : Nat
  comm : Bytes
  state : Char
  ppid : Int
  pgrp : Int
  /-- From `session` to `nice`. -/
  before : Vector Int 14
  numThreads : Nat
  /-- From `itrealvalue` on. -/
  after : List Int

def ProcStat.numbers (p : ProcStat) : List Int :=
  [p.ppid, p.pgrp] ++ p.before.toList ++ [(p.numThreads : Int)] ++ p.after

/-- What follows the name. -/
def ProcStat.tail (p : ProcStat) : Text :=
  ([p.state] :: p.numbers.map decimal).flatMap (fun word => ' ' :: word) ++ ['\n']

/-- `pid (comm) state ppid pgrp ... num_threads ...`. -/
def ProcStat.line (p : ProcStat) : Bytes :=
  encode (Nat.toDigits 10 p.pid ++ [' ', '(']) ++ p.comm ++ 41 :: encode p.tail

/-- A letter for the state, and numbers that fit their types. -/
structure ProcStat.Valid (p : ProcStat) : Prop where
  state : p.state.isAlpha = true
  pgrp : -2 ^ 31 ≤ p.pgrp ∧ p.pgrp < 2 ^ 31
  numThreads : p.numThreads < 2 ^ 64

/-- The process can still run. -/
def ProcStat.Live (p : ProcStat) : Prop := p.state ∉ ['Z', 'X', 'x'] ∨ 1 < p.numThreads

instance (p : ProcStat) : Decidable p.Live := inferInstanceAs (Decidable (_ ∨ _))

section Line

variable {text : Text} {p : ProcStat} {pgid : Int}

theorem strFromUtf8_encode (text : Text) : strFromUtf8 (encode text) = some text := by
  have hbytes : (encode text).toByteArray = (String.ofList text).toByteArray := by
    rw [← String.utf8Encode_toList, String.toList_ofList]
    rfl
  have hvalid : (encode text).toByteArray.IsValidUTF8 := ⟨text, rfl⟩
  have hdecoded : String.fromUTF8 (encode text).toByteArray hvalid = String.ofList text :=
    String.toByteArray_inj.mp hbytes
  rw [strFromUtf8, String.fromUTF8?, dif_pos hvalid, hdecoded, Option.map_some, String.toList_ofList]

/-- The byte is the last of its kind. -/
theorem afterLast_append {b : UInt8} (front : Bytes) {rest : Bytes} (h : b ∉ rest) :
    afterLast b (front ++ b :: rest) = some rest := by
  rw [afterLast, if_pos (List.mem_append_right _ List.mem_cons_self), List.reverse_append,
    List.reverse_cons, List.append_assoc, List.takeWhile_append_of_pos]
  · simp
  · intro c hc
    rw [bne_iff_ne]
    rintro rfl
    exact h (List.mem_reverse.mp hc)

/-- Words with a blank before each are read as these words. -/
theorem splitAsciiWhitespace_words {words : List Text} (hne : ∀ word ∈ words, word ≠ [])
    (hwords : ∀ word ∈ words, ∀ ch ∈ word, isAsciiWhitespace ch = false) :
    splitAsciiWhitespace (words.flatMap (fun word => ' ' :: word) ++ ['\n']) = words := by
  -- a text that begins with a blank has an empty first part
  have hblank : ∀ (front rest : Text) (ch : Char), isAsciiWhitespace ch = true →
      (∀ c ∈ front, isAsciiWhitespace c = false) →
      splitAsciiWhitespace (front ++ ch :: rest) =
        [front].filter (· ≠ []) ++ splitAsciiWhitespace rest := by
    intro front rest ch hch hfront
    rw [splitAsciiWhitespace, List.splitOnP_append_cons _ _ hch, List.splitOnP_eq_singleton hfront,
      List.filter_append]
    rfl
  have hstart : ∀ (rest : Text) (ch : Char), isAsciiWhitespace ch = true →
      splitAsciiWhitespace (ch :: rest) = splitAsciiWhitespace rest := fun rest ch hch =>
    hblank [] rest ch hch nofun
  induction words with
  | nil =>
      rw [List.flatMap_nil, List.nil_append, hstart _ _ (by decide)]
      rfl
  | cons word words ih =>
      obtain ⟨ch, rest, hrest, hch⟩ : ∃ ch rest, words.flatMap (fun word => ' ' :: word) ++ ['\n'] =
          ch :: rest ∧ isAsciiWhitespace ch = true := by
        cases words with
        | nil => exact ⟨'\n', [], rfl, by decide⟩
        | cons next words => exact ⟨' ', _, rfl, by decide⟩
      have hword : [word].filter (· ≠ []) = [word] :=
        List.filter_cons_of_pos (by simp [hne word List.mem_cons_self])
      rw [List.flatMap_cons, List.cons_append, List.cons_append, hstart _ _ (by decide), List.append_assoc,
        hrest, hblank word rest ch hch (hwords word List.mem_cons_self), hword, ← hstart rest ch hch,
        ← hrest, ih (fun w hw => hne w (List.mem_cons_of_mem _ hw))
          (fun w hw => hwords w (List.mem_cons_of_mem _ hw))]
      rfl

/-! ## Numbers -/

theorem parseDigits_toDigits (n : Nat) : parseDigits (Nat.toDigits 10 n) = some n := by
  have hdigits : (Nat.toDigits 10 n).all Char.isDigit = true := List.all_eq_true.mpr fun ch hch =>
    Nat.isDigit_of_mem_toDigits (by decide) (by decide) hch
  rw [parseDigits, if_pos ⟨Nat.toDigits_ne_nil, hdigits⟩, Nat.ofDigitChars_ten_toDigits]

/-- A number without a sign begins with a digit. -/
theorem toDigits_cons (n : Nat) : ∃ ch rest, Nat.toDigits 10 n = ch :: rest ∧ ch ≠ '-' ∧ ch ≠ '+' := by
  cases hdigits : Nat.toDigits 10 n with
  | nil => exact absurd hdigits Nat.toDigits_ne_nil
  | cons ch rest =>
      have hdigit : ch.isDigit = true := by
        apply Nat.isDigit_of_mem_toDigits (b := 10) (n := n) (by decide) (by decide)
        rw [hdigits]
        exact List.mem_cons_self
      refine ⟨ch, rest, rfl, ?_, ?_⟩
      · rintro rfl
        exact absurd hdigit (by decide)
      · rintro rfl
        exact absurd hdigit (by decide)

theorem parseI32_decimal {n : Int} (hlow : -2 ^ 31 ≤ n) (hhigh : n < 2 ^ 31) :
    parseI32 (decimal n) = some n := by
  have hfits : (some n).filter (fun n => decide (-2 ^ 31 ≤ n ∧ n < 2 ^ 31)) = some n := by
    rw [Option.filter_some, if_pos (by simpa using ⟨hlow, hhigh⟩)]
  cases n with
  | ofNat k =>
      obtain ⟨ch, rest, hdigits, hminus, hplus⟩ := toDigits_cons k
      have hparse := parseDigits_toDigits k
      rw [hdigits] at hparse
      unfold parseI32 decimal
      dsimp only
      rw [hdigits]
      split
      · rename_i heq
        exact absurd (List.cons.inj heq).1 hminus
      · rename_i heq
        exact absurd (List.cons.inj heq).1 hplus
      · rw [hparse]
        exact hfits
  | negSucc k =>
      show ((parseDigits (Nat.toDigits 10 (k + 1))).map fun (n : Nat) => -(n : Int)).filter _ = _
      rw [parseDigits_toDigits]
      exact hfits

theorem parseUsize_decimal {n : Nat} (h : n < 2 ^ 64) : parseUsize (decimal (n : Int)) = some n := by
  obtain ⟨ch, rest, hdigits, -, hplus⟩ := toDigits_cons n
  have hparse := parseDigits_toDigits n
  rw [hdigits] at hparse
  show parseUsize (Nat.toDigits 10 n) = some n
  unfold parseUsize
  rw [hdigits]
  split
  · rename_i heq
    exact absurd (List.cons.inj heq).1 hplus
  · rw [hparse, Option.filter_some, if_pos (by simpa using h)]

theorem mem_decimal {n : Int} {ch : Char} (h : ch ∈ decimal n) : ch = '-' ∨ ch.isDigit = true := by
  cases n with
  | ofNat k => exact .inr (Nat.isDigit_of_mem_toDigits (by decide) (by decide) h)
  | negSucc k =>
      obtain rfl | h := List.mem_cons.mp h
      · exact .inl rfl
      · exact .inr (Nat.isDigit_of_mem_toDigits (by decide) (by decide) h)

theorem decimal_ne_nil (n : Int) : decimal n ≠ [] := by
  cases n with
  | ofNat k => exact Nat.toDigits_ne_nil
  | negSucc k => exact List.cons_ne_nil _ _

/-! ## The line is read as it is meant -/

/-- What follows the name has no parenthesis, and no blanks but those between the words. -/
theorem word_chars (h : p.Valid) {word : Text} (hword : word ∈ [p.state] :: p.numbers.map decimal) :
    word ≠ [] ∧ ∀ ch ∈ word, isAsciiWhitespace ch = false ∧ ch.toNat ≠ 41 := by
  have hsafe : ∀ ch : Char, ch.isAlpha = true ∨ ch = '-' ∨ ch.isDigit = true →
      isAsciiWhitespace ch = false ∧ ch.toNat ≠ 41 := by
    intro ch hch
    refine ⟨?_, fun heq => ?_⟩
    · rw [Bool.eq_false_iff]
      intro hblank
      obtain rfl | rfl | rfl | rfl | rfl :
          ch = ' ' ∨ ch = '\t' ∨ ch = '\n' ∨ ch = '\r' ∨ ch = Char.ofNat 0x0c := by
        simpa [isAsciiWhitespace] using hblank
      all_goals exact absurd hch (by decide)
    · rw [← Char.ofNat_toNat ch, heq] at hch
      exact absurd hch (by decide)
  obtain rfl | hnumber := List.mem_cons.mp hword
  · refine ⟨List.cons_ne_nil _ _, fun ch hch => hsafe ch (.inl ?_)⟩
    rw [List.mem_singleton.mp hch]
    exact h.state
  · obtain ⟨n, -, rfl⟩ := List.mem_map.mp hnumber
    exact ⟨decimal_ne_nil n, fun ch hch => hsafe ch (.inr (mem_decimal hch))⟩

theorem paren_notMem_tail (h : p.Valid) : 41 ∉ encode p.tail := by
  intro hmem
  obtain ⟨ch, hch, hbyte⟩ := List.mem_flatMap.mp hmem
  have hparen : ch.toNat = 41 := by
    obtain heq | hle := Json.byte_of_encode hbyte
    · exact heq.symm
    · exact absurd hle (by decide)
  rw [ProcStat.tail, List.mem_append, List.mem_flatMap, List.mem_singleton] at hch
  obtain ⟨word, hword, hch⟩ | rfl := hch
  · obtain rfl | hch := List.mem_cons.mp hch
    · exact absurd hparen (by decide)
    · exact ((word_chars h hword).2 ch hch).2 hparen
  · exact absurd hparen (by decide)

/-- Whatever a process is called, its line is read as it is meant. -/
theorem parseStat_line (h : p.Valid) : parseStat p.line = .ok (p.pgrp, decide p.Live) := by
  have hlast : afterLast 41 p.line = some (encode p.tail) := afterLast_append _ (paren_notMem_tail h)
  have hfields : splitAsciiWhitespace p.tail = [p.state] :: p.numbers.map decimal :=
    splitAsciiWhitespace_words (fun word hword => (word_chars h hword).1)
      fun word hword ch hch => ((word_chars h hword).2 ch hch).1
  have hgroup : ([p.state] :: p.numbers.map decimal)[2]? = some (decimal p.pgrp) := rfl
  have hthreads : ([p.state] :: p.numbers.map decimal)[17]? = some (decimal (p.numThreads : Int)) := by
    have hbefore : p.before.toList.length = 14 := Vector.length_toList
    rw [ProcStat.numbers, List.getElem?_cons_succ, List.getElem?_map, List.append_assoc, List.append_assoc,
      List.getElem?_append_right (by simp), List.getElem?_append_right (by simp)]
    simp
  have hlive : (!([['Z'], ['X'], ['x']].contains [p.state]) || decide (1 < p.numThreads)) = decide p.Live := by
    simp [ProcStat.Live, List.contains_eq_mem]
  unfold parseStat
  rw [hlast]
  simp only [orMalformed, bind, Except.bind, strFromUtf8_encode, hfields, List.head?_cons, hgroup, hthreads,
    Option.bind_some, parseI32_decimal h.pgrp.1 h.pgrp.2, parseUsize_decimal h.numThreads, hlive, pure,
    Except.pure]

end Line

/-! ## The scan -/

/-- The entry is of a process. -/
def ProcEntry.IsProcess (entry : ProcEntry) : Prop := entry.name.all isAsciiDigit = true

/-- An entry that cannot be read or parsed, and has not vanished. -/
def Fails (entry : Result ProcEntry) : Prop :=
  match entry with
  | .error _ => True
  | .ok entry => entry.IsProcess ∧
    match entry.stat with
    | .error error => error.vanished = false
    | .ok bytes => ∃ error, parseStat bytes = .error error

/-- An entry that is read as a live member of the group. -/
def ShowsLive (pgid : Int) (entry : Result ProcEntry) : Prop :=
  ∃ e bytes, entry = .ok e ∧ e.IsProcess ∧ e.stat = .ok bytes ∧ parseStat bytes = .ok (pgid, true)

section Scan

variable {pgid : Int} {entries : List (Result ProcEntry)} {proc : Result (List (Result ProcEntry))}

/-- One entry: it decides the scan, or the scan goes on. -/
theorem scanGroup_cons (pgid : Int) (entry : Result ProcEntry) (rest : List (Result ProcEntry)) :
    Fails entry ∧ (∃ error, scanGroup pgid (entry :: rest) = .error error) ∨
      ShowsLive pgid entry ∧ scanGroup pgid (entry :: rest) = .ok true ∨
      ¬ Fails entry ∧ ¬ ShowsLive pgid entry ∧ scanGroup pgid (entry :: rest) = scanGroup pgid rest := by
  cases entry with
  | error error => exact .inl ⟨trivial, error, rfl⟩
  | ok e =>
      by_cases hprocess : e.IsProcess
      · have hname : (!e.name.all isAsciiDigit) = false := by
          rw [Bool.not_eq_false']
          exact hprocess
        rw [scanGroup, if_neg (Bool.eq_false_iff.mp hname)]
        cases hstat : e.stat with
        | error error =>
            dsimp only
            have hnot : ¬ ShowsLive pgid (.ok e) := by
              rintro ⟨e', bytes, heq, -, hbytes, -⟩
              cases heq
              rw [hstat] at hbytes
              cases hbytes
            cases hvanished : error.vanished with
            | true =>
                refine .inr (.inr ⟨fun hfails => ?_, hnot, if_pos rfl⟩)
                have hbad := hfails.2
                rw [hstat] at hbad
                exact absurd (hbad.symm.trans hvanished) (by decide)
            | false =>
                refine .inl ⟨⟨hprocess, ?_⟩, error, if_neg (by decide)⟩
                rw [hstat]
                exact hvanished
        | ok bytes =>
            dsimp only
            cases hparse : parseStat bytes with
            | error error =>
                refine .inl ⟨⟨hprocess, ?_⟩, error, rfl⟩
                rw [hstat]
                exact ⟨error, hparse⟩
            | ok result =>
                obtain ⟨group, live⟩ := result
                dsimp only
                by_cases hmember : group = pgid ∧ live = true
                · rw [if_pos hmember]
                  obtain ⟨rfl, rfl⟩ := hmember
                  exact .inr (.inl ⟨⟨e, bytes, rfl, hprocess, hstat, hparse⟩, rfl⟩)
                · rw [if_neg hmember]
                  refine .inr (.inr ⟨fun hfails => ?_, ?_, rfl⟩)
                  · have hbad := hfails.2
                    rw [hstat] at hbad
                    obtain ⟨error, herror⟩ := hbad
                    rw [hparse] at herror
                    cases herror
                  · rintro ⟨e', bytes', heq, -, hbytes, hshows⟩
                    cases heq
                    rw [hstat] at hbytes
                    cases hbytes
                    rw [hparse] at hshows
                    cases hshows
                    exact hmember ⟨rfl, rfl⟩
      · have hname : (!e.name.all isAsciiDigit) = true := by
          rw [Bool.not_eq_true']
          exact Bool.eq_false_iff.mpr hprocess
        rw [scanGroup, if_pos hname]
        refine .inr (.inr ⟨fun hfails => hprocess hfails.1, ?_, rfl⟩)
        rintro ⟨e', bytes, heq, hprocess', -, -⟩
        cases heq
        exact hprocess hprocess'

/-- A scan that finds nobody has read everything. -/
theorem scanGroup_false (h : scanGroup pgid entries = .ok false) :
    ∀ entry ∈ entries, ¬ Fails entry ∧ ¬ ShowsLive pgid entry := by
  induction entries with
  | nil => exact nofun
  | cons entry rest ih =>
      obtain ⟨-, error, herror⟩ | ⟨-, htrue⟩ | ⟨hfails, hlive, hrest⟩ := scanGroup_cons pgid entry rest
      · rw [h] at herror
        cases herror
      · rw [h] at htrue
        cases htrue
      · intro other hmem
        obtain rfl | hmem := List.mem_cons.mp hmem
        · exact ⟨hfails, hlive⟩
        · exact ih (hrest ▸ h) other hmem

/-- An entry that fails makes the scan fail, unless a live member came before. -/
theorem scanGroup_fails {front rest : List (Result ProcEntry)} {entry : Result ProcEntry}
    (hfails : Fails entry) :
    (∃ error, scanGroup pgid (front ++ entry :: rest) = .error error) ∨
      (∃ other ∈ front, ShowsLive pgid other) ∧ scanGroup pgid (front ++ entry :: rest) = .ok true := by
  induction front with
  | nil =>
      obtain ⟨-, herror⟩ | ⟨⟨e, bytes, rfl, -, hstat, hparse⟩, -⟩ | ⟨hnot, -, -⟩ :=
        scanGroup_cons pgid entry rest
      · exact .inl herror
      · have hbad := hfails.2
        rw [hstat] at hbad
        obtain ⟨error, herror⟩ := hbad
        rw [hparse] at herror
        cases herror
      · exact absurd hfails hnot
  | cons first front ih =>
      obtain ⟨-, herror⟩ | ⟨hlive, htrue⟩ | ⟨-, -, hrest⟩ := scanGroup_cons pgid first (front ++ entry :: rest)
      · exact .inl herror
      · exact .inr ⟨⟨first, List.mem_cons_self, hlive⟩, htrue⟩
      · rw [List.cons_append, hrest]
        exact ih.imp_right fun h => ⟨h.1.imp fun _ hother => ⟨List.mem_cons_of_mem _ hother.1, hother.2⟩, h.2⟩

/-- The line of a process is read as it is meant, whatever its name.  The scan finds nobody
    only where every entry was read, or had vanished, and none is a live member of the group;
    an entry that cannot be read or parsed makes it fail, unless it had found one before. -/
theorem group_scan (pgid : Int) (proc : Result (List (Result ProcEntry))) :
    (∀ p : ProcStat, p.Valid → parseStat p.line = .ok (p.pgrp, decide p.Live)) ∧
    (groupHasLiveMembers pgid proc = .ok false → ∃ entries, proc = .ok entries ∧
      ∀ entry ∈ entries, ¬ Fails entry ∧ ∀ (e : ProcEntry) (p : ProcStat), entry = .ok e →
        e.IsProcess → p.Valid → e.stat = .ok p.line → p.pgrp = pgid → ¬ p.Live) ∧
    (∀ error, proc = .error error → groupHasLiveMembers pgid proc = .error error) ∧
    ∀ front entry rest, proc = .ok (front ++ entry :: rest) → Fails entry →
      (∃ error, groupHasLiveMembers pgid proc = .error error) ∨
        (∃ other ∈ front, ShowsLive pgid other) ∧ groupHasLiveMembers pgid proc = .ok true := by
  refine ⟨fun p hp => parseStat_line hp, fun hfalse => ?_, ?_, ?_⟩
  · cases proc with
    | error error => cases hfalse
    | ok entries =>
        refine ⟨entries, rfl, fun entry hentry => ?_⟩
        obtain ⟨hfails, hlive⟩ := scanGroup_false hfalse entry hentry
        refine ⟨hfails, ?_⟩
        rintro e p rfl hprocess hp hstat rfl hmember
        apply hlive
        refine ⟨e, p.line, rfl, hprocess, hstat, ?_⟩
        rw [parseStat_line hp, decide_eq_true hmember]
  · rintro error rfl
    rfl
  · rintro front entry rest rfl hfails
    exact scanGroup_fails hfails

/-- A process with a name that imitates the rest of its line. -/
def sampleStat : ProcStat where
  pid := 12
  comm := encode ") Z 1 99 ".toList
  state := 'S'
  ppid := 1
  pgrp := 12
  before := Vector.replicate 14 0
  numThreads := 1
  after := [0, 4]

/-- After a live member, the scan does not come to an entry that cannot be read. -/
theorem group_scan_stops : ¬ ∀ (pgid : Int) (entries : List (Result ProcEntry)),
    (∃ entry ∈ entries, Fails entry) → ∃ error, groupHasLiveMembers pgid (.ok entries) = .error error := by
  intro hall
  have hvalid : sampleStat.Valid := ⟨by decide, by decide, by decide⟩
  have hlive : ShowsLive 12 (.ok ⟨[49, 50], .ok sampleStat.line⟩) := by
    refine ⟨⟨[49, 50], .ok sampleStat.line⟩, sampleStat.line, rfl, by unfold ProcEntry.IsProcess; decide, rfl, ?_⟩
    rw [parseStat_line hvalid]
    rfl
  obtain ⟨error, herror⟩ := hall 12 [.ok ⟨[49, 50], .ok sampleStat.line⟩, .error ⟨none, "denied"⟩]
    ⟨.error ⟨none, "denied"⟩, by simp, trivial⟩
  obtain ⟨hfails, -⟩ | ⟨-, htrue⟩ | ⟨-, hnot, -⟩ :=
    scanGroup_cons 12 (.ok ⟨[49, 50], .ok sampleStat.line⟩) [.error ⟨none, "denied"⟩]
  · obtain ⟨e, hparse⟩ := hfails.2
    rw [parseStat_line hvalid] at hparse
    cases hparse
  · rw [groupHasLiveMembers, htrue] at herror
    cases herror
  · exact hnot hlive

end Scan

end VivadoServer.Sessions

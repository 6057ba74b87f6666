/-
  VivadoServer.Diagnostics.Limits

  The archives stay within their limits: each of them, all of them together, and how
  many there are.  What carries it is the budget: the bytes of all archives and a
  footer for each open one are within the total limit, so that an open archive can
  always be finished.
-/

import VivadoServer.Diagnostics.Retention
import VivadoServer.Lib.StepSystem

namespace VivadoServer.Diagnostics

open VivadoServer.History (Bytes Uuid hyphenated)
open VivadoServer.Sessions (Text byteLength)
open StepSystem

/-- The bytes of a disk. -/
def i64Max : Nat := 2 ^ 63 - 1

/-! ## Steps of the writer -/

/-- What the writer does next; all that it writes is written. -/
inductive Action where
  | start (h : Header) (time : Int) (c : PruneCourse)
  | output (id : Uuid) (issues : Issues) (text : Text) (now time : Int) (c : PruneCourse)
  | finish (id : Uuid) (info : SessionInfo) (issues : Issues) (observed dropped : Nat) (time : Int)
  | prune (c : PruneCourse)

section Steps

variable (fromStr : FromStr) (timeText : Int → String)

def Action.perform : Action → Writer → Writer
  | start h time c, w => (w.start fromStr timeText h time c .done).1
  | output id issues text now time c, w =>
    (w.output fromStr timeText id issues text now time c .done).1
  | finish id info issues observed dropped time, w =>
    match w.find id with
    | some a => (w.finish timeText a info issues observed dropped time .done).1
    | none => w
  | prune c, w => (w.prune fromStr 0 0 c).1

/-- A step, after which the archives still fit on a disk. -/
def step (a : Action) (w : Writer) : Option Writer :=
  let w' := a.perform fromStr timeText w
  if heldBytes fromStr w'.directory ≤ i64Max then some w' else none

end Steps

/-- A directory is listed as it is; the counters and the ends of the sessions are what
    their types let them be. -/
def Allowed (sessions : Header → Prop) (a : Action) (w : Writer) : Prop :=
  match a with
  | .start h _ c => sessions h ∧ c.listing.Perm w.directory
  | .output _ _ _ _ _ c => c.listing.Perm w.directory
  | .finish _ info _ observed dropped _ => info.Proper ∧ observed ≤ u64Max ∧ dropped ≤ u64Max
  | .prune c => c.listing.Perm w.directory

/-! ## The budget -/

/-- Each archive created here, all archives, and how many they are, are within the limits. -/
structure Limited (fromStr : FromStr) (options : ObservabilityConfig) (d : Directory)
    (created : List Uuid) : Prop where
  each : ∀ e ∈ d, e.1 ∈ created → e.2.content.length ≤ options.archiveMaxBytesPerSession
  all : heldBytes fromStr d ≤ options.archiveMaxTotalBytes
  count : (held fromStr d).length ≤ options.archiveMaxSessions

/-- A file that has its header, and some bytes in all. -/
def Holds (timeText : Int → String) (sessions : Header → Prop) (d : Directory) (id : Uuid)
    (bytes : Nat) : Prop :=
  ∃ h f rest, sessions h ∧ h.sessionId = id ∧ (id, f) ∈ d ∧ f.regular = true ∧
    f.content = startedRecord timeText h ++ rest ∧ f.content.length = bytes

/-- An open archive knows the length of its file, and leaves room for a footer. -/
structure Backed (timeText : Int → String) (sessions : Header → Prop) (w : Writer) (a : OpenArchive) :
    Prop where
  file : Holds timeText sessions w.directory a.id a.bytes
  position : a.position = a.bytes
  room : a.bytes + footerReserve ≤ w.options.archiveMaxBytesPerSession
  text : a.outputBytes ≤ a.bytes

structure Within (fromStr : FromStr) (timeText : Int → String) (sessions : Header → Prop)
    (w : Writer) : Prop where
  valid : w.options.validate = .ok ()
  named : w.directory.Named
  once : (w.archives.map OpenArchive.id).Nodup
  backed : ∀ a ∈ w.archives, Backed timeText sessions w a
  total : w.totalBytes = heldBytes fromStr w.directory
  budget : w.totalBytes + footerReserve * w.archives.length ≤ w.options.archiveMaxTotalBytes
  limited : Limited fromStr w.options w.directory w.created
  past : ∀ p ∈ w.past, Limited fromStr w.options p.1 p.2

theorem validate_bounds {c : ObservabilityConfig} (h : c.validate = .ok ()) :
    4096 ≤ c.archiveMaxBytesPerSession ∧ c.archiveMaxBytesPerSession ≤ c.archiveMaxTotalBytes ∧
      c.archiveMaxSessions ≤ 100000 := by
  unfold ObservabilityConfig.validate at h
  by_cases hper : c.archiveMaxBytesPerSession < 4096
  · rw [if_pos hper] at h
    cases h
  · by_cases htotal : c.archiveMaxTotalBytes < c.archiveMaxBytesPerSession
    · rw [if_neg hper, if_pos htotal] at h
      cases h
    · by_cases hsessions : 1 ≤ c.archiveMaxSessions ∧ c.archiveMaxSessions ≤ 100000
      · omega
      · rw [if_neg hper, if_neg htotal, if_pos hsessions] at h
        cases h

section Budget

variable {fromStr : FromStr} {timeText : Int → String} {sessions : Header → Prop} {w w' : Writer}

theorem Limited.sublist {options : ObservabilityConfig} {d d' : Directory} {created : List Uuid}
    (h : Limited fromStr options d created) (hsub : d'.Sublist d) :
    Limited fromStr options d' created :=
  ⟨fun e he => h.each e (hsub.subset he), Nat.le_trans (heldBytes_le _ hsub) h.all,
    Nat.le_trans (held_length_le hsub) h.count⟩

theorem Holds.mono {d d' : Directory} {id : Uuid} {bytes : Nat}
    (h : Holds timeText sessions d id bytes) (hkept : ∀ f, (id, f) ∈ d → (id, f) ∈ d') :
    Holds timeText sessions d' id bytes := by
  obtain ⟨h, f, rest, hsession, hid, hmem, hend⟩ := h
  exact ⟨h, f, rest, hsession, hid, hkept f hmem, hend⟩

/-- Archives that are not open may go. -/
theorem Within.shrinks (h : Within fromStr timeText sessions w) (hshrinks : Shrinks w w')
    (htotal : w'.totalBytes = heldBytes fromStr w'.directory) :
    Within fromStr timeText sessions w' := by
  have hless := heldBytes_le fromStr hshrinks.sub
  have hold := h.total
  have hbudget := h.budget
  refine ⟨?_, h.named.sublist hshrinks.sub, ?_, fun a ha => ?_, htotal, ?_, ?_, fun p hp => ?_⟩
  · rw [hshrinks.options]
    exact h.valid
  · rw [hshrinks.archives]
    exact h.once
  · rw [hshrinks.archives] at ha
    obtain ⟨hfile, hposition, hroom, htext⟩ := h.backed a ha
    refine ⟨hfile.mono fun f hf => hshrinks.kept a.id f ⟨a, ha, rfl⟩ hf, hposition, ?_, htext⟩
    rw [hshrinks.options]
    exact hroom
  · rw [hshrinks.options, hshrinks.archives]
    omega
  · rw [hshrinks.options, hshrinks.created]
    exact h.limited.sublist hshrinks.sub
  · rw [hshrinks.options]
    obtain hpast | ⟨hsub, hcreated⟩ := hshrinks.past p hp
    · exact h.past p hpast
    · rw [hcreated]
      exact h.limited.sublist hsub

theorem prune_keeps {incoming additional : Nat} {c : PruneCourse}
    (h : Within fromStr timeText sessions w) (hperm : c.listing.Perm w.directory) :
    Within fromStr timeText sessions (w.prune fromStr incoming additional c).1 := by
  obtain ⟨hshrinks, htotal, -⟩ := prune_spec fromStr incoming additional h.named hperm
  exact h.shrinks hshrinks (htotal h.total)

/-- What is known of the headers and the clock: a header is read as it was written, and
    is as short as its project name and its time allow. -/
structure Readable (fromStr : FromStr) (timeText : Int → String) (sessions : Header → Prop) : Prop where
  time : ∀ t, (timeText t).utf8ByteSize ≤ 35
  header : ∀ h, sessions h → Reads fromStr timeText h ∧ Sync.validateProjectName h.project = .ok ()

theorem Readable.length (hread : Readable fromStr timeText sessions) {h : Header} (hsession : sessions h) :
    (startedRecord timeText h).length ≤ footerReserve :=
  startedRecord_length hread.time (hread.header h hsession).2

/-- A file with its header is recognized. -/
theorem Holds.recognized (hread : Readable fromStr timeText sessions) {d : Directory} {id : Uuid}
    {bytes : Nat} (h : Holds timeText sessions d id bytes) :
    ∃ f, (id, f) ∈ d ∧ recognized fromStr (id, f) = true ∧ f.content.length = bytes := by
  obtain ⟨h, f, rest, hsession, rfl, hmem, hregular, hcontent, hlength⟩ := h
  have hshort : (startedRecord timeText h).length ≤ 4096 :=
    Nat.le_trans (hread.length hsession) (by decide)
  exact ⟨f, hmem, recognized_started (hread.header h hsession).1 hshort hregular hcontent, hlength⟩

/-- The bytes of an open archive are among those of all archives. -/
theorem Within.bytes_le (h : Within fromStr timeText sessions w)
    (hread : Readable fromStr timeText sessions) {a : OpenArchive} (ha : a ∈ w.archives) :
    a.bytes ≤ w.totalBytes := by
  obtain ⟨f, hmem, hheld, hlength⟩ := (h.backed a ha).file.recognized hread
  rw [h.total, ← hlength]
  apply List.le_sum_of_mem
  exact List.mem_map.mpr ⟨(a.id, f), List.mem_filter.mpr ⟨hmem, hheld⟩, rfl⟩

/-- There are as many archives as are open, or more. -/
theorem Within.open_le (h : Within fromStr timeText sessions w)
    (hread : Readable fromStr timeText sessions) :
    w.archives.length ≤ (held fromStr w.directory).length := by
  have hsub : w.archives.map OpenArchive.id ⊆ (held fromStr w.directory).map Prod.fst := by
    intro id hid
    obtain ⟨a, ha, rfl⟩ := List.mem_map.mp hid
    obtain ⟨f, hmem, hheld, -⟩ := (h.backed a ha).file.recognized hread
    exact List.mem_map_of_mem (f := Prod.fst) (List.mem_filter.mpr ⟨hmem, hheld⟩)
  have := (List.subperm_of_subset h.once hsub).length_le
  rwa [List.length_map, List.length_map] at this

/-- Where all archives are open, there are no more than these. -/
theorem Within.all_open (h : Within fromStr timeText sessions w)
    (hopen : ∀ e ∈ held fromStr w.directory, w.Opens e.1) :
    (held fromStr w.directory).length ≤ w.archives.length := by
  have hsub : (held fromStr w.directory).map Prod.fst ⊆ w.archives.map OpenArchive.id := by
    intro id hid
    obtain ⟨e, he, rfl⟩ := List.mem_map.mp hid
    obtain ⟨a, ha, heq⟩ := hopen e he
    exact heq ▸ List.mem_map_of_mem (f := OpenArchive.id) ha
  have hnodup : ((held fromStr w.directory).map Prod.fst).Nodup :=
    (List.filter_sublist.map Prod.fst).nodup h.named
  have := (List.subperm_of_subset hnodup hsub).length_le
  rwa [List.length_map, List.length_map] at this

theorem writeAt_end (content bytes : Bytes) : writeAt content content.length bytes = content ++ bytes := by
  rw [writeAt, List.take_length, Nat.sub_self, List.drop_of_length_le (Nat.le_add_right _ _)]
  simp

/-- What is written to the file of an open archive goes to its end, and nowhere else. -/
theorem Within.put (h : Within fromStr timeText sessions w) (hread : Readable fromStr timeText sessions)
    {a : OpenArchive} (ha : a ∈ w.archives) (bytes : Bytes) (time : Int) :
    (w.put a bytes time).directory.Named ∧
      heldBytes fromStr (w.put a bytes time).directory = heldBytes fromStr w.directory + bytes.length ∧
      (held fromStr (w.put a bytes time).directory).length = (held fromStr w.directory).length ∧
      Holds timeText sessions (w.put a bytes time).directory a.id (a.bytes + bytes.length) ∧
      ∀ e, e.1 ≠ a.id → (e ∈ (w.put a bytes time).directory ↔ e ∈ w.directory) := by
  obtain ⟨⟨h', f, rest, hsession, hid, hmem, hregular, hcontent, hlength⟩, hposition, -, -⟩ := h.backed a ha
  have hread' := (hread.header h' hsession).1
  have hshort : (startedRecord timeText h').length ≤ 4096 :=
    Nat.le_trans (hread.length hsession) (by decide)
  have hwritten : writeAt f.content a.position bytes = startedRecord timeText h' ++ (rest ++ bytes) := by
    rw [hposition, ← hlength, writeAt_end, hcontent, List.append_assoc]
  have hgrown : (writeAt f.content a.position bytes).length = a.bytes + bytes.length := by
    rw [hposition, ← hlength, writeAt_end, List.length_append]
  have hheld : recognized fromStr (a.id, f) = true :=
    hid ▸ recognized_started hread' hshort hregular hcontent
  have hheld' : recognized fromStr (a.id,
      { f with content := writeAt f.content a.position bytes, modified := time }) = true :=
    hid ▸ recognized_started hread' hshort hregular hwritten
  have hput : (w.put a bytes time).directory = w.directory.change a.id fun f =>
      { f with content := writeAt f.content a.position bytes, modified := time } := rfl
  obtain ⟨hbytes, hcount⟩ := change_held h.named (g := fun f =>
    { f with content := writeAt f.content a.position bytes, modified := time }) hmem hheld hheld'
  rw [hput]
  refine ⟨change_named h.named, ?_, hcount, ?_, fun e hne => mem_change_other hne⟩
  · dsimp only at hbytes
    rw [hgrown, hlength] at hbytes
    omega
  · exact ⟨h', _, rest ++ bytes, hsession, hid, mem_change_self hmem, hregular, hwritten, hgrown⟩

/-! ## What a step preserves -/

theorem sat_of_le {a b : Nat} (h : a + b ≤ u64Max) : sat a b = a + b := min_eq_left h

theorem le_of_sat_le {a b c : Nat} (h : sat a b ≤ c) (hc : c < u64Max) : a + b ≤ c := by
  unfold sat at h
  omega

/-- An archive is created where there is room for it, and for its footer. -/
theorem Within.created (h : Within fromStr timeText sessions w)
    (hread : Readable fromStr timeText sessions) {header : Header} (hsession : sessions header) (time : Int)
    (hfree : w.directory.lookup header.sessionId = none)
    (heach : (startedRecord timeText header).length + footerReserve ≤ w.options.archiveMaxBytesPerSession)
    (hall : w.totalBytes + (startedRecord timeText header).length +
      footerReserve * (w.archives.length + 1) ≤ w.options.archiveMaxTotalBytes)
    (hcount : (held fromStr w.directory).length + 1 ≤ w.options.archiveMaxSessions) :
    Within fromStr timeText sessions
      { w.setDirectory (w.directory ++ [(header.sessionId, ⟨startedRecord timeText header, time, true⟩)]) with
        totalBytes := w.totalBytes + (startedRecord timeText header).length
        archives := w.archives ++ [⟨header.sessionId, (startedRecord timeText header).length,
          (startedRecord timeText header).length, 0⟩]
        created := header.sessionId :: w.created } := by
  have hshort : (startedRecord timeText header).length ≤ 4096 :=
    Nat.le_trans (hread.length hsession) (by decide)
  have hheld : recognized fromStr (header.sessionId, ⟨startedRecord timeText header, time, true⟩) = true :=
    recognized_started (hread.header header hsession).1 hshort rfl (List.append_nil _).symm
  obtain ⟨hbytes, hmore⟩ := append_held (d := w.directory) hheld
  dsimp only at hbytes
  have hnew : header.sessionId ∉ w.archives.map OpenArchive.id := by
    intro hid
    obtain ⟨a, ha, heq⟩ := List.mem_map.mp hid
    obtain ⟨f, hmem, -, -⟩ := (h.backed a ha).file.recognized hread
    apply notMem_of_lookup hfree
    exact heq ▸ List.mem_map_of_mem (f := Prod.fst) hmem
  have htotal := h.total
  have hlimits := validate_bounds h.valid
  refine ⟨h.valid, append_named h.named hfree, ?_, fun a ha => ?_, ?_, ?_, ⟨fun e he hcreated => ?_, ?_, ?_⟩,
    fun p hp => ?_⟩
  · show ((w.archives ++ [_]).map OpenArchive.id).Nodup
    rw [List.map_append]
    exact List.nodup_append.mpr ⟨h.once, List.nodup_singleton _, fun x hx y hy heq => by
      obtain rfl : y = header.sessionId := List.mem_singleton.mp hy
      exact hnew (heq ▸ hx)⟩
  · obtain hold | hfresh := List.mem_append.mp ha
    · obtain ⟨hfile, hposition, hroom, htext⟩ := h.backed a hold
      exact ⟨hfile.mono fun f hf => List.mem_append_left _ hf, hposition, hroom, htext⟩
    · obtain rfl := List.mem_singleton.mp hfresh
      exact ⟨⟨header, _, [], hsession, rfl, List.mem_append_right _ (List.mem_singleton_self _), rfl,
        (List.append_nil _).symm, rfl⟩, rfl, heach, Nat.zero_le _⟩
  · show w.totalBytes + _ = heldBytes fromStr (w.directory ++ [_])
    rw [hbytes, htotal]
  · show w.totalBytes + _ + footerReserve * (w.archives ++ [_]).length ≤ w.options.archiveMaxTotalBytes
    rw [List.length_append, List.length_singleton]
    exact hall
  · obtain hold | hfresh := List.mem_append.mp he
    · obtain heq | hcreated := List.mem_cons.mp hcreated
      · exact absurd (heq ▸ List.mem_map_of_mem (f := Prod.fst) hold) (notMem_of_lookup hfree)
      · exact h.limited.each e hold hcreated
    · obtain rfl := List.mem_singleton.mp hfresh
      show (startedRecord timeText header).length ≤ w.options.archiveMaxBytesPerSession
      omega
  · show heldBytes fromStr (w.directory ++ [_]) ≤ w.options.archiveMaxTotalBytes
    omega
  · show (held fromStr (w.directory ++ [_])).length ≤ w.options.archiveMaxSessions
    omega
  · obtain rfl | hold := List.mem_cons.mp hp
    · exact h.limited
    · exact h.past p hold

theorem start_keeps (hread : Readable fromStr timeText sessions) {header : Header} {time : Int}
    {c : PruneCourse} (h : Within fromStr timeText sessions w) (hsession : sessions header)
    (hperm : c.listing.Perm w.directory)
    (hdisk : heldBytes fromStr (w.start fromStr timeText header time c .done).1.directory ≤ i64Max) :
    Within fromStr timeText sessions (w.start fromStr timeText header time c .done).1 := by
  obtain ⟨hshrinks, htotal, hdone⟩ :=
    prune_spec fromStr 1 (startedRecord timeText header).length h.named hperm
  have hpruned := h.shrinks hshrinks (htotal h.total)
  unfold Writer.start at hdisk ⊢
  dsimp only at hdisk ⊢
  generalize w.prune fromStr 1 (startedRecord timeText header).length c = r at *
  obtain ⟨w₁, ok⟩ := r
  dsimp only at *
  split at hdisk
  · rename_i hfailed
    rw [if_pos hfailed]
    exact hpruned
  · rename_i hok
    rw [if_neg hok]
    obtain ⟨-, hroom⟩ := hdone (by simpa using hok)
    split at hdisk
    · rename_i hlong
      rw [if_pos hlong]
      exact hpruned
    · rename_i hshort
      rw [if_neg hshort]
      split at hdisk
      · rename_i hover
        rw [if_pos hover]
        exact hpruned
      · rename_i hover
        rw [if_neg hover]
        split at hdisk
        · rename_i hthere
          rw [if_pos hthere]
          exact hpruned
        · rename_i hfree
          rw [if_neg hfree]
          rw [Bool.or_eq_true, not_or, decide_eq_true_iff, Writer.overTotal, decide_eq_true_iff] at hover
          obtain ⟨hover, hopen⟩ := hover
          have hlimits := validate_bounds hpruned.valid
          have hfree' : w₁.directory.lookup header.sessionId = none :=
            Option.not_isSome_iff_eq_none.mp hfree
          have hheld : recognized fromStr (header.sessionId,
              ⟨startedRecord timeText header, time, true⟩) = true :=
            recognized_started (hread.header header hsession).1
              (Nat.le_trans (hread.length hsession) (by decide)) rfl (List.append_nil _).symm
          have hbytes := (append_held (d := w₁.directory) hheld).1
          have hdisk' : heldBytes fromStr (w₁.directory ++
            [(header.sessionId, ⟨startedRecord timeText header, time, true⟩)]) ≤ i64Max := hdisk
          have htotal' := hpruned.total
          have hsum : w₁.totalBytes + (startedRecord timeText header).length ≤ i64Max := by
            dsimp only at hbytes
            omega
          have hreserve : footerReserve * (w₁.archives.length + 1) ≤ 2 ^ 62 := by
            unfold footerReserve
            omega
          unfold i64Max at hsum
          rw [sat_of_le (a := w₁.totalBytes) (by unfold u64Max; omega),
            sat_of_le (by unfold u64Max; omega)] at hover
          rw [sat_of_le (a := w₁.totalBytes) (by unfold u64Max; omega)]
          apply hpruned.created hread hsession time hfree' (Nat.le_of_not_lt hshort) (Nat.le_of_not_lt hover)
          -- either all archives are open, and fewer than the limit, or retention left room
          by_cases hall : ∀ e ∈ held fromStr w₁.directory, w₁.Opens e.1
          · have := hpruned.all_open hall
            omega
          · push Not at hall
            obtain ⟨e, he, hclosed⟩ := hall
            obtain hopens | hroom' := hroom e he
            · rw [Writer.Opens, ← hshrinks.archives] at hopens
              exact absurd hopens hclosed
            · have hcount := hroom'.1
              rw [overCount, decide_eq_false_iff_not] at hcount
              have : w₁.options.archiveMaxSessions < u64Max := Nat.lt_of_le_of_lt hlimits.2.2 (by decide)
              exact le_of_sat_le (Nat.le_of_not_lt hcount) this

theorem setArchive_ids (a : OpenArchive) (w : Writer) :
    ((w.setArchive a).archives).map OpenArchive.id = w.archives.map OpenArchive.id := by
  show (w.archives.map _).map OpenArchive.id = _
  rw [List.map_map]
  apply List.map_congr_left
  intro b _
  dsimp only [Function.comp]
  split
  · rename_i heq
    exact heq.symm
  · rfl

/-- The file of one open archive grows: the others keep their lengths. -/
theorem Within.put_each (h : Within fromStr timeText sessions w)
    (hread : Readable fromStr timeText sessions) {a : OpenArchive} (ha : a ∈ w.archives) {bytes : Bytes}
    {time : Int} (heach : a.bytes + bytes.length ≤ w.options.archiveMaxBytesPerSession) :
    ∀ e ∈ (w.put a bytes time).directory, e.1 ∈ w.created →
      e.2.content.length ≤ w.options.archiveMaxBytesPerSession := by
  obtain ⟨hnamed, -, -, hfile, hothers⟩ := h.put hread ha bytes time
  rintro ⟨id, f⟩ he hcreated
  by_cases hid : id = a.id
  · subst hid
    obtain ⟨f', hmem, -, hlength⟩ := hfile.recognized hread
    rw [hnamed.unique he hmem, hlength]
    exact heach
  · exact h.limited.each _ ((hothers _ hid).mp he) hcreated

/-- A record is archived where there is room for it, and for the footers. -/
theorem Within.archived (h : Within fromStr timeText sessions w)
    (hread : Readable fromStr timeText sessions) {a : OpenArchive} (ha : a ∈ w.archives) {record : Bytes}
    {text : Text} {time : Int} (htext : byteLength text ≤ record.length)
    (heach : a.bytes + record.length + footerReserve ≤ w.options.archiveMaxBytesPerSession)
    (hall : w.totalBytes + record.length + footerReserve * w.archives.length ≤
      w.options.archiveMaxTotalBytes)
    (hsum : w.totalBytes + record.length ≤ u64Max) :
    Within fromStr timeText sessions (w.archive a record text time .done).1 := by
  obtain ⟨hnamed, hbytes, hcount, hfile, hothers⟩ := h.put hread ha record time
  obtain ⟨-, hposition, -, hshort⟩ := h.backed a ha
  have htotal := h.total
  have hlimit := h.limited.count
  have hgrown : (w.archive a record text time .done).1.totalBytes =
      heldBytes fromStr (w.put a record time).directory := by
    rw [hbytes, ← htotal]
    exact sat_of_le hsum
  have hopen : (w.archive a record text time .done).1.archives.length = w.archives.length :=
    List.length_map _
  refine ⟨h.valid, hnamed, ?_, fun b hb => ?_, hgrown, ?_, ⟨h.put_each hread ha (by omega), ?_, ?_⟩,
    fun p hp => ?_⟩
  · have hids := setArchive_ids { a with
      position := a.position + record.length
      bytes := a.bytes + record.length
      outputBytes := a.outputBytes + byteLength text } w
    show (List.map OpenArchive.id (w.setArchive _).archives).Nodup
    rw [hids]
    exact h.once
  · obtain ⟨b', hb', rfl⟩ := List.mem_map.mp hb
    split
    · refine ⟨hfile, ?_, heach, ?_⟩
      · show a.position + record.length = a.bytes + record.length
        rw [hposition]
      · exact Nat.add_le_add hshort htext
    · rename_i hother
      obtain ⟨hfile', hposition', hroom', hshort'⟩ := h.backed b' hb'
      exact ⟨hfile'.mono fun f hf => (hothers _ hother).mpr hf, hposition', hroom', hshort'⟩
  · rw [hgrown, hopen, hbytes, ← htotal]
    exact hall
  · show heldBytes fromStr (w.put a record time).directory ≤ w.options.archiveMaxTotalBytes
    omega
  · show (held fromStr (w.put a record time).directory).length ≤ w.options.archiveMaxSessions
    omega
  · obtain rfl | hold := List.mem_cons.mp hp
    · exact h.limited
    · exact h.past p hold

theorem find_spec {id : Uuid} {a : OpenArchive} (h : w.find id = some a) : a ∈ w.archives ∧ a.id = id := by
  have hid := List.find?_some h
  exact ⟨List.mem_of_find?_eq_some h, beq_iff_eq.mp hid⟩

theorem output_keeps (hread : Readable fromStr timeText sessions) {id : Uuid} {issues : Issues}
    {text : Text} {now time : Int} {c : PruneCourse} (h : Within fromStr timeText sessions w)
    (hperm : c.listing.Perm w.directory)
    (hdisk : heldBytes fromStr (w.output fromStr timeText id issues text now time c .done).1.directory ≤
      i64Max) :
    Within fromStr timeText sessions (w.output fromStr timeText id issues text now time c .done).1 := by
  unfold Writer.output at hdisk ⊢
  dsimp only at hdisk ⊢
  split at hdisk
  · exact h
  · rename_i a hfind
    obtain ⟨ha, rfl⟩ := find_spec hfind
    split at hdisk
    · rename_i hfull
      rw [if_pos hfull]
      exact h
    · rename_i hfull
      rw [if_neg hfull]
      split at hdisk
      · rename_i hover
        rw [if_pos hover]
        exact h
      · rename_i hover
        rw [if_neg hover]
        have hroom : ∀ p : Writer × Bool, p = (if w.overTotal (outputRecord timeText now text).length
              (footerReserve * w.archives.length) = true
            then w.prune fromStr 0 (outputRecord timeText now text).length c else (w, true)) →
            Within fromStr timeText sessions p.1 ∧ p.1.archives = w.archives ∧ p.1.options = w.options := by
          rintro p rfl
          split
          · obtain ⟨hshrinks, htotal, -⟩ :=
              prune_spec fromStr 0 (outputRecord timeText now text).length h.named hperm
            exact ⟨h.shrinks hshrinks (htotal h.total), hshrinks.archives, hshrinks.options⟩
          · exact ⟨h, rfl, rfl⟩
        generalize hp : (if w.overTotal (outputRecord timeText now text).length
              (footerReserve * w.archives.length) = true
            then w.prune fromStr 0 (outputRecord timeText now text).length c else (w, true)) = p at *
        obtain ⟨hin, harchives, hoptions⟩ := hroom p rfl
        obtain ⟨w₁, ok⟩ := p
        dsimp only at *
        split at hdisk
        · rename_i hfailed
          rw [if_pos hfailed]
          exact hin
        · rename_i hok
          rw [if_neg hok]
          split at hdisk
          · rename_i htotal
            rw [if_pos htotal]
            exact hin
          · rename_i htotal
            rw [if_neg htotal]
            rw [← harchives] at ha
            rw [Writer.overTotal, decide_eq_true_iff, ← harchives] at htotal
            rw [← hoptions] at hover
            obtain ⟨-, hbytes, -, -, -⟩ := hin.put hread ha (outputRecord timeText now text) time
            have hdisk' : heldBytes fromStr (w₁.put a (outputRecord timeText now text) time).directory ≤
              i64Max := hdisk
            have hsize := hin.total
            have hlimits := validate_bounds hin.valid
            have hopen := hin.open_le hread
            have hcount := hin.limited.count
            have hsum : w₁.totalBytes + (outputRecord timeText now text).length ≤ i64Max := by omega
            have hfile := hin.bytes_le hread ha
            have hreserve : footerReserve * w₁.archives.length ≤ 2 ^ 62 := by
              unfold footerReserve
              omega
            unfold i64Max at hsum
            have hlong : ∀ n ≤ 2 ^ 63 - 1 + 2 ^ 62, n ≤ u64Max := by
              unfold u64Max
              omega
            rw [sat_of_le (a := w₁.totalBytes) (hlong _ (by omega)), sat_of_le (hlong _ (by omega))] at htotal
            rw [sat_of_le (a := a.bytes) (hlong _ (by omega)),
              sat_of_le (hlong _ (by unfold footerReserve; omega))] at hover
            exact hin.archived hread ha (outputRecord_length _ _ _) (Nat.le_of_not_lt hover)
              (Nat.le_of_not_lt htotal) (hlong _ (by omega))

/-- The footer of an open archive is written, and within the limits. -/
theorem Within.finished (h : Within fromStr timeText sessions w)
    (hread : Readable fromStr timeText sessions) (hdisk : w.totalBytes ≤ i64Max) {a : OpenArchive}
    (ha : a ∈ w.archives) {info : SessionInfo} (hinfo : info.Proper) (issues : Issues)
    {observed dropped : Nat} (hobserved : observed ≤ u64Max) (hdropped : dropped ≤ u64Max) (time : Int) :
    (w.finish timeText a info issues observed dropped time .done).2 = true ∧
      Within fromStr timeText sessions (w.finish timeText a info issues observed dropped time .done).1 := by
  obtain ⟨-, -, hroom, htext⟩ := h.backed a ha
  have hsmall := h.bytes_le hread ha
  have hfits : (finishedRecord timeText a.id info issues ⟨observed, a.outputBytes, dropped⟩).length ≤
      footerReserve := by
    apply finishedRecord_length hread.time a.id hinfo issues hobserved _ hdropped
    have : i64Max ≤ u64Max := by decide
    dsimp only
    omega
  unfold Writer.finish
  dsimp only
  rw [if_pos hfits]
  dsimp only
  generalize finishedRecord timeText a.id info issues ⟨observed, a.outputBytes, dropped⟩ = record at *
  obtain ⟨hnamed, hbytes, hcount, -, hothers⟩ := h.put hread ha record time
  have htotal := h.total
  have hbudget := h.budget
  have hlimit := h.limited.count
  have hsum : sat w.totalBytes record.length = w.totalBytes + record.length := by
    apply sat_of_le
    unfold footerReserve at hfits
    have : i64Max + 2048 ≤ u64Max := by decide
    omega
  have hfewer : (w.archives.filter fun b => b.id != a.id).length < w.archives.length :=
    List.length_filter_lt_length_iff_exists.mpr ⟨a, ha, by simp⟩
  have hleft : record.length + footerReserve * (w.archives.filter fun b => b.id != a.id).length ≤
      footerReserve * w.archives.length := by
    unfold footerReserve at *
    omega
  refine ⟨rfl, h.valid, hnamed, (List.filter_sublist.map _).nodup h.once, fun b hb => ?_, ?_, ?_,
    ⟨h.put_each hread ha (by omega), ?_, ?_⟩, fun p hp => ?_⟩
  · obtain ⟨hmem, hother⟩ := List.mem_filter.mp hb
    obtain ⟨hfile', hposition', hroom', hshort'⟩ := h.backed b hmem
    exact ⟨hfile'.mono fun f hf => (hothers _ (bne_iff_ne.mp hother)).mpr hf, hposition', hroom', hshort'⟩
  · show sat w.totalBytes record.length = heldBytes fromStr (w.put a record time).directory
    omega
  · show sat w.totalBytes record.length +
      footerReserve * (w.archives.filter fun b => b.id != a.id).length ≤ w.options.archiveMaxTotalBytes
    omega
  · show heldBytes fromStr (w.put a record time).directory ≤ w.options.archiveMaxTotalBytes
    omega
  · show (held fromStr (w.put a record time).directory).length ≤ w.options.archiveMaxSessions
    omega
  · obtain rfl | hold := List.mem_cons.mp hp
    · exact h.limited
    · exact h.past p hold

/-- A step keeps what is within the limits within them. -/
theorem step_keeps (hread : Readable fromStr timeText sessions) {a : Action}
    (h : Within fromStr timeText sessions w ∧ w.totalBytes ≤ i64Max) (hallowed : Allowed sessions a w)
    (hstep : step fromStr timeText a w = some w') :
    Within fromStr timeText sessions w' ∧ w'.totalBytes ≤ i64Max := by
  obtain ⟨hin, hbefore⟩ := h
  unfold step at hstep
  dsimp only at hstep
  split at hstep
  · rename_i hdisk
    cases hstep
    have hkept : Within fromStr timeText sessions (a.perform fromStr timeText w) := by
      cases a with
      | start h time c => exact start_keeps hread hin hallowed.1 hallowed.2 hdisk
      | output id issues text now time c => exact output_keeps hread hin hallowed hdisk
      | finish id info issues observed dropped time =>
          unfold Action.perform
          dsimp only
          split
          · rename_i a hfind
            exact (hin.finished hread hbefore (find_spec hfind).1 hallowed.1 issues hallowed.2.1
              hallowed.2.2 time).2
          · exact hin
      | prune c => exact prune_keeps hin hallowed
    exact ⟨hkept, hkept.total ▸ hdisk⟩
  · cases hstep

theorem initialize_options {options : ObservabilityConfig} {d : Directory} {c : PruneCourse}
    (hnamed : d.Named) (hperm : c.listing.Perm d) (h : Writer.initializeDiagnostics fromStr options d c = some w) :
    w.options = options := by
  have hshrinks := (prune_spec (w := ⟨options, [], 0, d, [], []⟩) fromStr 0 0 hnamed hperm).1
  unfold Writer.initializeDiagnostics at h
  dsimp only at h
  split at h
  · cases h
    exact hshrinks.options
  · cases h

/-- The first pruning leaves what is within the limits. -/
theorem initialize_within {options : ObservabilityConfig} {d : Directory} {c : PruneCourse}
    (hvalid : options.validate = .ok ()) (hnamed : d.Named) (hperm : c.listing.Perm d)
    (hdisk : heldBytes fromStr d ≤ i64Max) (h : Writer.initializeDiagnostics fromStr options d c = some w) :
    Within fromStr timeText sessions w ∧ w.totalBytes ≤ i64Max := by
  obtain ⟨hshrinks, -, hdone⟩ := prune_spec (w := ⟨options, [], 0, d, [], []⟩) fromStr 0 0 hnamed hperm
  unfold Writer.initializeDiagnostics at h
  dsimp only at h
  split at h
  · rename_i hok
    cases h
    obtain ⟨htotal, hroom⟩ := hdone hok
    generalize Writer.prune fromStr 0 0 c ⟨options, [], 0, d, [], []⟩ = r at *
    obtain ⟨w₁, ok⟩ := r
    dsimp only at *
    have hless := heldBytes_le fromStr hshrinks.sub
    dsimp only at hless
    have hlimits := validate_bounds hvalid
    have hall : heldBytes fromStr w₁.directory ≤ options.archiveMaxTotalBytes ∧
        (held fromStr w₁.directory).length ≤ options.archiveMaxSessions := by
      by_cases hempty : held fromStr w₁.directory = []
      · rw [heldBytes, hempty]
        exact ⟨Nat.zero_le _, Nat.zero_le _⟩
      · obtain ⟨e, he⟩ := List.exists_mem_of_ne_nil _ hempty
        obtain ⟨a, ha, -⟩ | ⟨hcount, hbytes⟩ := hroom e he
        · cases ha
        · rw [overCount, hshrinks.options, decide_eq_false_iff_not] at hcount
          unfold overBytes at hbytes
          rw [hshrinks.options, hshrinks.archives, decide_eq_false_iff_not] at hbytes
          have hlong : i64Max ≤ u64Max := by decide
          have hshort : options.archiveMaxSessions < u64Max := Nat.lt_of_le_of_lt hlimits.2.2 (by decide)
          rw [sat_of_le (a := w₁.totalBytes) (by simp; omega), sat_of_le (by simp; omega)] at hbytes
          refine ⟨?_, ?_⟩
          · simp only [List.length_nil, Nat.add_zero, Nat.mul_zero] at hbytes
            omega
          · have := le_of_sat_le (Nat.le_of_not_lt hcount) hshort
            omega
    refine ⟨⟨hshrinks.options ▸ hvalid, hnamed.sublist hshrinks.sub, ?_, ?_, htotal, ?_,
      ⟨?_, ?_, ?_⟩, (by rintro _ ⟨⟩)⟩, ?_⟩
    · rw [hshrinks.archives]
      exact List.nodup_nil
    · rw [hshrinks.archives]
      rintro _ ⟨⟩
    · rw [hshrinks.archives, hshrinks.options, htotal]
      exact hall.1
    · rw [hshrinks.created]
      rintro _ _ ⟨⟩
    · rw [hshrinks.options]
      exact hall.1
    · rw [hshrinks.options]
      exact hall.2
    · show w₁.totalBytes ≤ i64Max
      omega
  · cases h

/-! ## Runs of the writer -/

theorem start_options {header : Header} {time : Int} {c : PruneCourse} (hnamed : w.directory.Named)
    (hperm : c.listing.Perm w.directory) :
    (w.start fromStr timeText header time c .done).1.options = w.options := by
  have hprune := (prune_spec fromStr 1 (startedRecord timeText header).length hnamed hperm).1.options
  unfold Writer.start
  dsimp only
  split
  · exact hprune
  · split
    · exact hprune
    · split
      · exact hprune
      · split
        · exact hprune
        · exact hprune

theorem archive_options (a : OpenArchive) (record : Bytes) (text : Text) (time : Int) :
    (w.archive a record text time .done).1.options = w.options := rfl

theorem output_options {id : Uuid} {issues : Issues} {text : Text} {now time : Int} {c : PruneCourse}
    (hnamed : w.directory.Named) (hperm : c.listing.Perm w.directory) :
    (w.output fromStr timeText id issues text now time c .done).1.options = w.options := by
  have hprune := (prune_spec fromStr 0 (outputRecord timeText now text).length hnamed hperm).1.options
  unfold Writer.output
  dsimp only
  split
  · rfl
  · split
    · rfl
    · split
      · rfl
      · have hroom : (if w.overTotal (outputRecord timeText now text).length
              (footerReserve * w.archives.length) = true
            then w.prune fromStr 0 (outputRecord timeText now text).length c
            else (w, true)).1.options = w.options := by
          split
          · exact hprune
          · rfl
        generalize (if w.overTotal (outputRecord timeText now text).length
              (footerReserve * w.archives.length) = true
            then w.prune fromStr 0 (outputRecord timeText now text).length c
            else (w, true)) = r at *
        split
        · exact hroom
        · split
          · exact hroom
          · rw [archive_options]
            exact hroom

theorem finish_frame (timeText : Int → String) (w : Writer) (a : OpenArchive) (info : SessionInfo)
    (issues : Issues) (observed dropped : Nat) (time : Int) :
    (w.finish timeText a info issues observed dropped time .done).1.options = w.options ∧
      (w.finish timeText a info issues observed dropped time .done).1.created = w.created := by
  unfold Writer.finish
  dsimp only
  split
  · exact ⟨rfl, rfl⟩
  · exact ⟨rfl, rfl⟩

/-- The options of the writer stay what they are. -/
theorem step_options {a : Action} (hnamed : w.directory.Named) (hallowed : Allowed sessions a w)
    (hstep : step fromStr timeText a w = some w') : w'.options = w.options := by
  unfold step at hstep
  dsimp only at hstep
  split at hstep
  · cases hstep
    cases a with
    | start h time c => exact start_options hnamed hallowed.2
    | output id issues text now time c => exact output_options hnamed hallowed
    | finish id info issues observed dropped time =>
        unfold Action.perform
        dsimp only
        split
        · exact (finish_frame timeText w _ info issues observed dropped time).1
        · rfl
    | prune c => exact (prune_spec fromStr 0 0 hnamed hallowed).1.options
  · cases hstep

/-- From the end of the first pruning on, whatever the writer does: at every instant each
    archive of this lifetime, all archives, and how many they are, are within the limits;
    the total is right; and every open archive can write its footer, and is not pruned. -/
theorem archives_limited {options : ObservabilityConfig} {d : Directory} {c : PruneCourse} {w₀ : Writer}
    (hread : Readable fromStr timeText sessions) (hvalid : options.validate = .ok ()) (hnamed : d.Named)
    (hperm : c.listing.Perm d) (hdisk : heldBytes fromStr d ≤ i64Max)
    (hinit : Writer.initializeDiagnostics fromStr options d c = some w₀)
    (hrun : Run (step fromStr timeText) (Allowed sessions) w₀ w) :
    (∀ p ∈ (w.directory, w.created) :: w.past, Limited fromStr options p.1 p.2) ∧
    w.totalBytes = heldBytes fromStr w.directory ∧
    w.totalBytes + footerReserve * w.archives.length ≤ options.archiveMaxTotalBytes ∧
    (∀ a ∈ w.archives, ∀ info issues observed dropped time, info.Proper → observed ≤ u64Max →
      dropped ≤ u64Max →
      (w.finish timeText a info issues observed dropped time .done).2 = true ∧
      Limited fromStr options (w.finish timeText a info issues observed dropped time .done).1.directory
        w.created) ∧
    ∀ incoming additional c, c.listing.Perm w.directory → ∀ a ∈ w.archives,
      ∃ f, (a.id, f) ∈ w.directory ∧ (a.id, f) ∈ (w.prune fromStr incoming additional c).1.directory := by
  have hfirst : Within fromStr timeText sessions w₀ ∧ w₀.totalBytes ≤ i64Max :=
    initialize_within hvalid hnamed hperm hdisk hinit
  obtain ⟨⟨hin, hsmall⟩, rfl⟩ : (Within fromStr timeText sessions w ∧ w.totalBytes ≤ i64Max) ∧
      w.options = options := by
    apply hrun.invariant (I := fun w => (Within fromStr timeText sessions w ∧ w.totalBytes ≤ i64Max) ∧
      w.options = options)
    · rintro a s t ⟨hs, hoptions⟩ hok hstep
      exact ⟨step_keeps hread hs hok hstep, (step_options hs.1.named hok hstep).trans hoptions⟩
    · exact ⟨hfirst, initialize_options hnamed hperm hinit⟩
  refine ⟨fun p hp => ?_, hin.total, hin.budget,
    fun a ha info issues observed dropped time hinfo hobserved hdropped => ?_,
    fun incoming additional c hlisting a ha => ?_⟩
  · obtain rfl | hpast := List.mem_cons.mp hp
    · exact hin.limited
    · exact hin.past p hpast
  · obtain ⟨hwritten, hafter⟩ := hin.finished hread hsmall ha hinfo issues hobserved hdropped time
    refine ⟨hwritten, ?_⟩
    obtain ⟨hoptions, hcreated⟩ :=
      finish_frame timeText w a info issues observed dropped time
    have hlimited := hafter.limited
    rwa [hoptions, hcreated] at hlimited
  · obtain ⟨f, hmem, -, -⟩ := (hin.backed a ha).file.recognized hread
    exact ⟨f, hmem, (prune_spec fromStr incoming additional hin.named hlisting).1.kept a.id f ⟨a, ha, rfl⟩
      hmem⟩

end Budget

def sampleHeader : Header := ⟨5, "p", 0⟩

def sampleTime (_ : Int) : String := "1970-01-01T00:00:00Z"

def sampleFromStr : FromStr := fun line =>
  if line = startedRecord sampleTime sampleHeader then
    some fun key => [("format", FORMAT), ("event", "started"), ("project", "p"),
      ("session_id", hyphenated 5), ("started_at", "1970-01-01T00:00:00Z")].lookup key
  else none

def sampleAllowed (a : Action) (w : Writer) : Bool :=
  match a with
  | .start h _ c => h == sampleHeader && c.listing.isPerm w.directory
  | .output _ _ _ _ _ c => c.listing.isPerm w.directory
  | .finish .. => false
  | .prune _ => false

theorem archives_limited_sample : ∃ w, Run (step sampleFromStr sampleTime) (Allowed (· = sampleHeader))
      ⟨⟨4096, 4096, 3600, 2⟩, [], 0, [], [], []⟩ w ∧
    (w.archives.map OpenArchive.outputBytes = [2] ∧ w.past.length = 2) ∧
    w.totalBytes + footerReserve * w.archives.length ≤ 4096 := by
  have hrun : ∃ w, Run (step sampleFromStr sampleTime) (fun a w => sampleAllowed a w = true)
      ⟨⟨4096, 4096, 3600, 2⟩, [], 0, [], [], []⟩ w ∧
      decide (w.archives.map OpenArchive.outputBytes = [2] ∧ w.past.length = 2) = true :=
    exists_of_execIf (show (execIf _ _ [Action.start sampleHeader 0 ⟨[], fun _ => 0, none⟩,
      Action.output 5 (fun _ => false) ['h', 'i'] 1 1 ⟨[(5, ⟨startedRecord sampleTime sampleHeader, 0, true⟩)],
        fun _ => 0, none⟩] _).any _ = true by decide +kernel)
  obtain ⟨w, hrun, hend⟩ := hrun
  have hallowed : Run (step sampleFromStr sampleTime) (Allowed (· = sampleHeader))
      ⟨⟨4096, 4096, 3600, 2⟩, [], 0, [], [], []⟩ w := by
    apply hrun.mono
    rintro (⟨h, time, c⟩ | ⟨id, issues, text, now, time, c⟩ | _ | _) w hok
    · obtain ⟨hheader, hperm⟩ := (Bool.and_eq_true _ _).mp hok
      exact ⟨beq_iff_eq.mp hheader, List.isPerm_iff.mp hperm⟩
    · exact List.isPerm_iff.mp hok
    · cases hok
    · cases hok
  have hread : Readable sampleFromStr sampleTime (· = sampleHeader) := by
    refine ⟨fun _ => show "1970-01-01T00:00:00Z".utf8ByteSize ≤ 35 by decide, ?_⟩
    rintro h rfl
    exact ⟨⟨_, if_pos rfl, rfl, rfl, rfl⟩, by decide⟩
  have hinit : Writer.initializeDiagnostics sampleFromStr ⟨4096, 4096, 3600, 2⟩ [] ⟨[], fun _ => 0, none⟩ =
      some ⟨⟨4096, 4096, 3600, 2⟩, [], 0, [], [], []⟩ := by
    simp [Writer.initializeDiagnostics, Writer.prune, ownedOf]
  have hnamed : Directory.Named [] := List.nodup_nil
  have hdisk : heldBytes sampleFromStr [] ≤ i64Max := Nat.zero_le _
  exact ⟨w, hallowed, of_decide_eq_true hend,
    (archives_limited hread rfl hnamed (.refl _) hdisk hinit hallowed).2.2.1⟩

end VivadoServer.Diagnostics

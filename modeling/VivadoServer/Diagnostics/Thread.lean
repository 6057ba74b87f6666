/-
  VivadoServer.Diagnostics.Thread

  What the thread of the writer preserves of a session, one access at a time.
-/

import VivadoServer.Diagnostics.View

namespace VivadoServer.Diagnostics.Archive.Session

open VivadoServer.History (Bytes Uuid)
open VivadoServer.Sessions (Text byteLength)

variable {timeText : Int → String} {id : Uuid} {v : View} {p : Session}

theorem raise_self (issues : Issues) (i : Issue) : issues.raise i i = true := by
  rw [Issues.raise, beq_self_eq_true, Bool.true_or]

theorem raise_of {issues : Issues} {i j : Issue} (h : issues j = true) : issues.raise i j = true := by
  rw [Issues.raise, h, Bool.or_true]

/-! ## Output -/

/-- Without a flag, the file of an archive is whole, and all that was processed is in it. -/
theorem Sound.whole (h : Sound timeText id v p) {a : OpenArchive} {file : Option ArchiveFile}
    (hstored : v.stored = some (a, file)) (hraising : v.raising = none)
    (hclear : ∀ i, fatal i = true → p.issues i = false) :
    (∃ f, file = some f ∧ Whole a f (startedRecord timeText p.header ++ p.recorded timeText)) ∧
      p.records.map Prod.snd = p.processed := by
  constructor
  · obtain ⟨-, -, f, hf, hwhole | ⟨hissue | hraised, -⟩⟩ := h.file a file hstored
    · exact ⟨f, hf, hwhole⟩
    · rw [hclear .diskError rfl] at hissue
      cases hissue
    · rw [hraising] at hraised
      cases hraised
  · obtain hkept | ⟨-, ⟨i, hfatal, hissue | hraised⟩ | ⟨hnone, -⟩⟩ := h.kept
    · exact hkept
    · rw [hclear i hfatal] at hissue
      cases hissue
    · rw [hraising] at hraised
      cases hraised
    · rw [hstored] at hnone
      cases hnone

theorem Sound.writes (h : Sound timeText id v p) {a a' : OpenArchive} {f f' : ArchiveFile}
    {text : Text} {rest : List Text} (now : Int) (hbacklog : v.backlog = text :: rest)
    (hreleasing : v.releasing = 0) (hstarts : v.starts = 0) (hstored : v.stored = some (a, some f))
    (hall : p.records.map Prod.snd = p.processed)
    (hwhole : Whole a' f' (startedRecord timeText p.header ++ p.recorded timeText ++
      outputRecord timeText now text)) (hid : a'.id = a.id)
    (hbytes : a'.outputBytes = a.outputBytes + byteLength text) :
    Sound timeText id { v with backlog := rest, releasing := 1, stored := some (a', some f') }
      { p with records := p.records ++ [(now, text)], processed := p.processed ++ [text] } := by
  obtain ⟨hpending, hqueued, hobserved, haccount, hsmall, hoffered, hclosed, hgave⟩ := h.delivered
  have harchived : ((p.records ++ [(now, text)]).map Prod.snd).flatten = p.archived ++ text := by
    simp [archived]
  refine ⟨⟨?_, ?_, hobserved, ?_, hsmall, hoffered, hclosed, hgave⟩, h.alarmed, h.lost, .inl ?_,
    (by rintro ⟨⟩), fun hne => absurd hstarts hne, ?_, fun g hg => ?_⟩
  · show p.pending = rest.length + 1 + p.producer.reserved
    rw [hpending, hbacklog, hreleasing, List.length_cons]
  · show p.queued = (p.processed ++ [text]) ++ rest
    rw [hqueued, hbacklog, List.append_assoc, List.singleton_append]
  · show byteLength p.pushed % 2 ^ 64 = (byteLength ((p.records ++ [(now, text)]).map Prod.snd).flatten +
      p.dropped + byteLength rest.flatten + byteLength p.producer.remaining) % 2 ^ 64
    rw [haccount, harchived, hbacklog, List.flatten_cons, History.byteLength_append,
      History.byteLength_append]
    congr 1
    omega
  · show (p.records ++ [(now, text)]).map Prod.snd = p.processed ++ [text]
    rw [List.map_append, hall]
    rfl
  · rintro b file hb
    obtain ⟨rfl, rfl⟩ := Prod.mk.inj (Option.some.inj hb)
    obtain ⟨hident, hlength, -⟩ := h.file a (some f) hstored
    refine ⟨hid.trans hident, ?_, f', rfl, .inl ?_⟩
    · show a'.outputBytes = byteLength ((p.records ++ [(now, text)]).map Prod.snd).flatten
      rw [harchived, History.byteLength_append, hbytes, hlength]
    · have hrecorded : recorded timeText
          { p with records := p.records ++ [(now, text)], processed := p.processed ++ [text] } =
          p.recorded timeText ++ outputRecord timeText now text := by
        simp [recorded]
      rw [hrecorded, ← List.append_assoc]
      exact hwhole
  · obtain ⟨hnone, -⟩ := h.footer g hg
    rw [hstored] at hnone
    cases hnone

/-- A text that is not archived is counted, and so are all after it. -/
theorem Sound.dropped (h : Sound timeText id v p) {text : Text} {rest : List Text}
    (hbacklog : v.backlog = text :: rest) (hreleasing : v.releasing = 0) (hblocked : Blocked v p)
    (halarm : Alarm v p) :
    Sound timeText id { v with backlog := rest, releasing := 1 }
      { p with dropped := fetchAdd p.dropped (byteLength text), processed := p.processed ++ [text] } := by
  obtain ⟨hpending, hqueued, hobserved, haccount, hsmall, hoffered, hclosed, hgave⟩ := h.delivered
  have hbusy : p.pending ≠ 0 := by
    rw [hpending, hbacklog, List.length_cons]
    omega
  refine ⟨⟨?_, ?_, hobserved, ?_, ?_, hoffered, hclosed, hgave⟩, h.alarmed, fun _ => halarm, .inr ⟨?_, hblocked⟩,
    fun _ _ => .inl halarm, h.fresh, fun b file hb => ?_, fun g hg => ?_⟩
  · show p.pending = rest.length + 1 + p.producer.reserved
    rw [hpending, hbacklog, hreleasing, List.length_cons]
  · show p.queued = (p.processed ++ [text]) ++ rest
    rw [hqueued, hbacklog, List.append_assoc, List.singleton_append]
  · show byteLength p.pushed % 2 ^ 64 = (byteLength p.archived + (p.dropped + byteLength text) % 2 ^ 64 +
      byteLength rest.flatten + byteLength p.producer.remaining) % 2 ^ 64
    rw [haccount, hbacklog, List.flatten_cons, History.byteLength_append]
    omega
  · show (p.dropped + byteLength text) % 2 ^ 64 < 2 ^ 64
    omega
  · show p.records.map Prod.snd <+: p.processed ++ [text]
    obtain heq | ⟨hstart, -⟩ := h.kept
    · exact ⟨[text], congrArg (· ++ [text]) heq⟩
    · exact hstart.trans (List.prefix_append _ _)
  · have hfiled := h.file b file hb
    exact ⟨hfiled.ident, hfiled.bytes, hfiled.file⟩
  · obtain ⟨-, -, hsigned⟩ := h.footer g hg
    exact absurd hsigned.settled.2 hbusy

theorem Sound.release (h : Sound timeText id v p) (hreleasing : v.releasing = 1) :
    Sound timeText id { v with releasing := 0 } { p with pending := p.pending - 1 } := by
  obtain ⟨hpending, hqueued, hobserved, haccount, hsmall, hoffered, hclosed, hgave⟩ := h.delivered
  have hbusy : p.pending ≠ 0 := by omega
  refine ⟨⟨?_, hqueued, hobserved, haccount, hsmall, hoffered, hclosed, hgave⟩, h.alarmed, h.lost, h.kept,
    fun hstored hstarts => ?_, h.fresh, fun b file hb => ?_, fun g hg => ?_⟩
  · show p.pending - 1 = v.backlog.length + 0 + p.producer.reserved
    omega
  · obtain halarm | ⟨info, -, hidle⟩ := h.missing hstored hstarts
    · exact .inl halarm
    · exact absurd hidle hbusy
  · have hfiled := h.file b file hb
    exact ⟨hfiled.ident, hfiled.bytes, hfiled.file⟩
  · obtain ⟨-, -, hsigned⟩ := h.footer g hg
    exact absurd hsigned.settled.2 hbusy

/-! ## Flags -/

/-- A flag is about to be raised. -/
theorem Sound.raise (h : Sound timeText id v p) (hraising : v.raising = none) (i : Issue) :
    Sound timeText id { v with raising := some i } p := by
  obtain ⟨hpending, hqueued, hobserved, haccount, hsmall, hoffered, hclosed, hgave⟩ := h.delivered
  have halarm : Alarm { v with raising := some i } p := .inr (.inl (by rintro ⟨⟩))
  refine ⟨⟨hpending, hqueued, hobserved, haccount, hsmall, hoffered, hclosed, hgave⟩, fun _ => .inl halarm,
    fun _ => halarm, h.kept.imp_right fun hkept => ⟨hkept.1, ?_⟩, fun _ _ => .inl halarm, h.fresh,
    fun b file hb => ?_, h.footer⟩
  · obtain ⟨j, hfatal, hissue | hraised⟩ | hgone := hkept.2
    · exact .inl ⟨j, hfatal, .inl hissue⟩
    · rw [hraising] at hraised
      cases hraised
    · exact .inr hgone
  · obtain ⟨hident, hlength, f, hf, hwhole | ⟨hissue | hraised, htorn⟩⟩ := h.file b file hb
    · exact ⟨hident, hlength, f, hf, .inl hwhole⟩
    · exact ⟨hident, hlength, f, hf, .inr ⟨.inl hissue, htorn⟩⟩
    · rw [hraising] at hraised
      cases hraised

/-- A record is torn, and the flag for it is about to be raised. -/
theorem Sound.torn (h : Sound timeText id v p) {a a' : OpenArchive} {f f' : ArchiveFile} {torn : Bytes}
    (hraising : v.raising = none) (hstarts : v.starts = 0) (hstored : v.stored = some (a, some f))
    (hlength : f'.content.length ≤ a'.position)
    (hpadded : padded a' f' = startedRecord timeText p.header ++ p.recorded timeText ++ torn)
    (hid : a'.id = a.id) (hbytes : a'.outputBytes = a.outputBytes) :
    Sound timeText id { v with raising := some .diskError, stored := some (a', some f') } p := by
  obtain ⟨hdelivered, halarmed, hlost, hkept, hmissing, hfresh, hfile, hfooter⟩ := h.raise hraising .diskError
  obtain ⟨hpending, hqueued, hobserved, haccount, hsmall, hoffered, hclosed, hgave⟩ := hdelivered
  refine ⟨⟨hpending, hqueued, hobserved, haccount, hsmall, hoffered, hclosed, hgave⟩, halarmed, hlost,
    hkept.imp_right fun hkept => ⟨hkept.1, .inl ⟨.diskError, rfl, .inr rfl⟩⟩, (by rintro ⟨⟩),
    fun hne => absurd hstarts hne, ?_, fun g hg => ?_⟩
  · rintro b file hb
    obtain ⟨rfl, rfl⟩ := Prod.mk.inj (Option.some.inj hb)
    obtain ⟨hident, hsize, -⟩ := hfile a (some f) hstored
    exact ⟨hid.trans hident, hbytes.trans hsize, f', rfl, .inr ⟨.inr rfl, hlength, torn, hpadded⟩⟩
  · obtain ⟨hnone, -⟩ := hfooter g hg
    exact absurd (hstored.symm.trans hnone) (by rintro ⟨⟩)

theorem Sound.disabled (h : Sound timeText id v p) {i : Issue} (hraising : v.raising = some i) :
    Sound timeText id v { p with disabled := true } := by
  obtain ⟨hpending, hqueued, hobserved, haccount, hsmall, hoffered, hclosed, hgave⟩ := h.delivered
  have halarm : Alarm v { p with disabled := true } := .inr (.inl (by rw [hraising]; rintro ⟨⟩))
  refine ⟨⟨hpending, hqueued, hobserved, haccount, hsmall, ?_, hclosed, fun _ => rfl⟩, fun _ => .inl halarm,
    fun _ => halarm, h.kept, fun _ _ => .inl halarm, h.fresh, fun b file hb => ?_, fun g hg => ?_⟩
  · exact hoffered.imp_right fun hno => ⟨hno.1, rfl, hno.2.2⟩
  · obtain ⟨hident, hlength, hrest⟩ := h.file b file hb
    exact ⟨hident, hlength, hrest⟩
  · obtain ⟨hstored, hstarts, hsettled, htally, htruncated, hcontent⟩ := h.footer g hg
    exact ⟨hstored, hstarts, hsettled, htally, htruncated, hcontent⟩

theorem Sound.flagged (h : Sound timeText id v p) {i : Issue} (hraising : v.raising = some i) :
    Sound timeText id { v with raising := none } { p with issues := p.issues.raise i } := by
  obtain ⟨hpending, hqueued, hobserved, haccount, hsmall, hoffered, hclosed, hgave⟩ := h.delivered
  have halarm : Alarm { v with raising := none } { p with issues := p.issues.raise i } :=
    .inl ⟨i, raise_self _ i⟩
  -- a flag that is raised now is set
  have hset : ∀ j, p.issues j = true ∨ v.raising = some j → p.issues.raise i j = true := by
    rintro j (hj | hj)
    · exact raise_of hj
    · rw [hraising] at hj
      cases hj
      exact raise_self _ i
  refine ⟨⟨hpending, hqueued, hobserved, haccount, hsmall, hoffered, hclosed, hgave⟩, fun _ => .inl halarm,
    fun _ => halarm, h.kept.imp_right fun hkept => ⟨hkept.1, ?_⟩, fun _ _ => .inl halarm, h.fresh,
    fun b file hb => ?_, fun g hg => ?_⟩
  · obtain ⟨j, hfatal, hj⟩ | hgone := hkept.2
    · exact .inl ⟨j, hfatal, .inl (hset j hj)⟩
    · exact .inr hgone
  · obtain ⟨hident, hlength, f, hf, hwhole | ⟨hdisk, htorn⟩⟩ := h.file b file hb
    · exact ⟨hident, hlength, f, hf, .inl hwhole⟩
    · exact ⟨hident, hlength, f, hf, .inr ⟨.inl (hset _ hdisk), htorn⟩⟩
  · obtain ⟨hstored, hstarts, hsettled, htally, htruncated, hcontent⟩ := h.footer g hg
    exact ⟨hstored, hstarts, hsettled, htally, htruncated, hcontent⟩

/-! ## The archive opens and closes -/

theorem Sound.opened (h : Sound timeText id v p) {time : Int} (hid : p.header.sessionId = id)
    (hstarts : v.starts ≠ 0) :
    Sound timeText id { v with
      starts := 0
      stored := some (⟨p.header.sessionId, (startedRecord timeText p.header).length,
        (startedRecord timeText p.header).length, 0⟩, some ⟨startedRecord timeText p.header, time, true⟩) } p := by
  obtain ⟨hpending, hqueued, hobserved, haccount, hsmall, hoffered, hclosed, hgave⟩ := h.delivered
  obtain ⟨-, hnone, hempty⟩ := h.fresh hstarts
  refine ⟨⟨hpending, hqueued, hobserved, haccount, hsmall, hoffered, hclosed, hgave⟩, h.alarmed, h.lost,
    h.kept.imp_right fun hkept => ⟨hkept.1, ?_⟩, (by rintro ⟨⟩), fun hne => absurd rfl hne, ?_, fun g hg => ?_⟩
  · exact .inl (hkept.2.resolve_right fun hgone => hstarts hgone.2)
  · rintro b file hb
    obtain ⟨rfl, rfl⟩ := Prod.mk.inj (Option.some.inj hb)
    refine ⟨hid, ?_, _, rfl, .inl ?_⟩
    · rw [archived, hempty]
      rfl
    · rw [recorded, hempty, List.map_nil, List.flatten_nil, List.append_nil]
      exact ⟨rfl, rfl, rfl⟩
  · exact absurd (h.footer g hg).2.1 hstarts

theorem Sound.failed (h : Sound timeText id v p) (hraising : v.raising = none) (hstarts : v.starts ≠ 0)
    (i : Issue) : Sound timeText id { v with starts := 0, raising := some i } p := by
  obtain ⟨hdelivered, halarmed, hlost, hkept, -, -, hfile, hfooter⟩ := h.raise hraising i
  obtain ⟨hpending, hqueued, hobserved, haccount, hsmall, hoffered, hclosed, hgave⟩ := hdelivered
  obtain ⟨-, hnone, -⟩ := h.fresh hstarts
  have halarm : Alarm { v with starts := 0, raising := some i } p := .inr (.inl (by rintro ⟨⟩))
  refine ⟨⟨hpending, hqueued, hobserved, haccount, hsmall, hoffered, hclosed, hgave⟩, halarmed, hlost,
    hkept.imp_right fun hkept => ⟨hkept.1, .inr ⟨hnone, rfl⟩⟩, fun _ _ => .inl halarm,
    fun hne => absurd rfl hne, fun b file hb => ?_, fun g hg => ?_⟩
  · have hfiled := hfile b file hb
    exact ⟨hfiled.ident, hfiled.bytes, hfiled.file⟩
  · exact absurd (h.footer g hg).2.1 hstarts

/-- The archive is closed, with a footer or without. -/
theorem Sound.closes (h : Sound timeText id v p) {info : SessionInfo} (hsettled : p.Settled info)
    (hraising : v.raising = none) (hstarts : v.starts = 0) (raising : Option Issue)
    {footer : Option Footer}
    (hsigned : ∀ f, footer = some f → Signed timeText id { p with footer := footer } f) :
    Sound timeText id { v with raising := raising, stored := none } { p with footer := footer } := by
  obtain ⟨hpending, hqueued, hobserved, haccount, hsmall, hoffered, hclosed, hgave⟩ := h.delivered
  have halarm : Alarm v p → Alarm { v with raising := raising, stored := none } { p with footer := footer } := by
    rintro (hissue | hraised | hflag)
    · exact .inl hissue
    · exact absurd hraising hraised
    · exact .inr (.inr hflag)
  exact ⟨⟨hpending, hqueued, hobserved, haccount, hsmall, hoffered, hclosed, hgave⟩,
    fun hoff => (h.alarmed hoff).imp_left halarm, fun hlost => halarm (h.lost hlost),
    h.kept.imp_right fun hkept => ⟨hkept.1, .inr ⟨rfl, hstarts⟩⟩,
    fun _ _ => .inr ⟨info, hsettled.1, hsettled.2⟩, fun hne => absurd hstarts hne, (by rintro _ _ ⟨⟩),
    fun g hg => ⟨rfl, hstarts, hsigned g hg⟩⟩

end VivadoServer.Diagnostics.Archive.Session

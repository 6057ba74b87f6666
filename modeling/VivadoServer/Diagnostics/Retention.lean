/-
  VivadoServer.Diagnostics.Retention

  What retention does to the diagnostics directory, and how long the records are.
  Removing an archive can only help, so retention needs no more than that it counts
  right and stops early only when there is room.

  A header is the first line of its file whatever is written after it, so an archive
  that grows is still recognized.  A footer fits in what is reserved for it.
-/

import VivadoServer.Diagnostics.Writer

namespace VivadoServer.Diagnostics

open VivadoServer.History (Bytes Uuid hyphenated)
open VivadoServer.Sessions (Text byteLength)

/-! ## Directories -/

/-- The archives of a directory. -/
def held (fromStr : FromStr) (d : Directory) : Directory := d.filter (recognized fromStr)

def sizes (d : Directory) : List Nat := d.map fun e => e.2.content.length

/-- The bytes of the archives. -/
def heldBytes (fromStr : FromStr) (d : Directory) : Nat := (sizes (held fromStr d)).sum

/-- No name is there twice. -/
def Directory.Named (d : Directory) : Prop := (d.map Prod.fst).Nodup

section Directories

variable {fromStr : FromStr} {d d' : Directory} {id : Uuid} {f : ArchiveFile}
  {g : ArchiveFile → ArchiveFile}

theorem Directory.Named.lookup_eq (h : d.Named) (hmem : (id, f) ∈ d) : d.lookup id = some f := by
  induction d with
  | nil => cases hmem
  | cons e rest ih =>
      obtain ⟨k, f'⟩ := e
      have hcons : k ∉ rest.map Prod.fst ∧ (rest.map Prod.fst).Nodup := List.nodup_cons.mp h
      rw [List.lookup_cons]
      obtain heq | hlater := List.mem_cons.mp hmem
      · cases heq
        rw [beq_self_eq_true]
      · have hne : (id == k) = false := by
          rw [beq_eq_false_iff_ne]
          rintro rfl
          exact hcons.1 (List.mem_map_of_mem (f := Prod.fst) hlater)
        rw [hne]
        exact ih hcons.2 hlater

theorem mem_of_lookup (h : d.lookup id = some f) : (id, f) ∈ d := by
  induction d with
  | nil => cases h
  | cons e rest ih =>
      obtain ⟨k, f'⟩ := e
      rw [List.lookup_cons] at h
      split at h
      · rename_i heq
        cases h
        rw [beq_iff_eq.mp heq]
        exact List.mem_cons_self
      · exact List.mem_cons_of_mem _ (ih h)

theorem notMem_of_lookup (h : d.lookup id = none) : id ∉ d.map Prod.fst := by
  induction d with
  | nil => rintro ⟨⟩
  | cons e rest ih =>
      obtain ⟨k, f'⟩ := e
      rw [List.lookup_cons] at h
      split at h
      · cases h
      · rename_i heq
        rw [List.map_cons, List.mem_cons, not_or]
        exact ⟨by simpa using heq, ih h⟩

theorem Directory.Named.unique (h : d.Named) {f' : ArchiveFile} (hmem : (id, f) ∈ d)
    (hmem' : (id, f') ∈ d) : f = f' :=
  Option.some.inj ((h.lookup_eq hmem).symm.trans (h.lookup_eq hmem'))

theorem Directory.Named.sublist (h : d.Named) (hsub : d'.Sublist d) : d'.Named :=
  (hsub.map Prod.fst).nodup h

theorem heldBytes_le (fromStr : FromStr) (hsub : d'.Sublist d) : heldBytes fromStr d' ≤ heldBytes fromStr d :=
  ((hsub.filter _).map _).sum_le_sum (fun _ _ => Nat.zero_le _)

theorem held_length_le (hsub : d'.Sublist d) :
    (held fromStr d').length ≤ (held fromStr d).length := (hsub.filter _).length_le

theorem remove_sublist (id : Uuid) (d : Directory) : (d.remove id).Sublist d := List.filter_sublist

theorem mem_remove {e : Uuid × ArchiveFile} : e ∈ d.remove id ↔ e ∈ d ∧ e.1 ≠ id := by
  rw [Directory.remove, List.mem_filter, bne_iff_ne]

/-- An archive that is removed takes its bytes with it. -/
theorem remove_held (h : d.Named) (hmem : (id, f) ∈ d) (hheld : recognized fromStr (id, f) = true) :
    heldBytes fromStr (d.remove id) + f.content.length = heldBytes fromStr d ∧
      (held fromStr (d.remove id)).length + 1 = (held fromStr d).length := by
  induction d with
  | nil => cases hmem
  | cons e rest ih =>
      obtain ⟨k, f'⟩ := e
      have hcons : k ∉ rest.map Prod.fst ∧ (rest.map Prod.fst).Nodup := List.nodup_cons.mp h
      obtain heq | hlater := List.mem_cons.mp hmem
      · cases heq
        have hrest : Directory.remove id rest = rest := by
          rw [Directory.remove, List.filter_eq_self]
          intro e he
          rw [bne_iff_ne]
          rintro rfl
          exact hcons.1 (List.mem_map_of_mem (f := Prod.fst) he)
        have hremove : Directory.remove id ((id, f) :: rest) = rest := by
          rw [Directory.remove, List.filter_cons_of_neg (by simp)]
          exact hrest
        have hcons' : held fromStr ((id, f) :: rest) = (id, f) :: held fromStr rest :=
          List.filter_cons_of_pos hheld
        rw [hremove, heldBytes, heldBytes, hcons']
        simp only [sizes, List.map_cons, List.sum_cons, List.length_cons, and_true]
        omega
      · have hne : k ≠ id := by
          rintro rfl
          exact hcons.1 (List.mem_map_of_mem (f := Prod.fst) hlater)
        have hremove : Directory.remove id ((k, f') :: rest) = (k, f') :: Directory.remove id rest := by
          rw [Directory.remove, List.filter_cons_of_pos (by simpa using hne)]
          rfl
        obtain ⟨hbytes, hcount⟩ := ih hcons.2 hlater
        rw [hremove]
        unfold heldBytes held at *
        by_cases hrec : recognized fromStr (k, f') = true
        · rw [List.filter_cons_of_pos hrec, List.filter_cons_of_pos hrec]
          simp only [sizes, List.map_cons, List.sum_cons, List.length_cons] at *
          omega
        · rw [List.filter_cons_of_neg hrec, List.filter_cons_of_neg hrec]
          exact ⟨hbytes, hcount⟩

theorem append_named (h : d.Named) (hfree : d.lookup id = none) : Directory.Named (d ++ [(id, f)]) := by
  rw [Directory.Named, List.map_append]
  exact List.nodup_append.mpr ⟨h, List.nodup_singleton _, fun a ha b hb heq => by
    obtain rfl : b = id := List.mem_singleton.mp hb
    exact notMem_of_lookup hfree (heq ▸ ha)⟩

theorem append_held (hheld : recognized fromStr (id, f) = true) :
    heldBytes fromStr (d ++ [(id, f)]) = heldBytes fromStr d + f.content.length ∧
      (held fromStr (d ++ [(id, f)])).length = (held fromStr d).length + 1 := by
  have hfilter : [(id, f)].filter (recognized fromStr) = [(id, f)] := List.filter_cons_of_pos hheld
  constructor
  · simp [heldBytes, held, hfilter, sizes]
  · simp [held, hfilter]

theorem change_keys (id : Uuid) (g : ArchiveFile → ArchiveFile) (d : Directory) :
    (d.change id g).map Prod.fst = d.map Prod.fst := by
  rw [Directory.change, List.map_map]
  apply List.map_congr_left
  intro e _
  dsimp only [Function.comp]
  split <;> rfl

theorem change_named (h : d.Named) : (d.change id g).Named := by
  rw [Directory.Named, change_keys]
  exact h

theorem mem_change_self (hmem : (id, f) ∈ d) : (id, g f) ∈ d.change id g :=
  List.mem_map.mpr ⟨_, hmem, if_pos rfl⟩

theorem mem_change_other {e : Uuid × ArchiveFile} (hne : e.1 ≠ id) :
    e ∈ d.change id g ↔ e ∈ d := by
  rw [Directory.change, List.mem_map]
  constructor
  · rintro ⟨e', he', rfl⟩
    split at hne
    · rename_i heq
      exact absurd heq hne
    · rename_i hother
      rw [if_neg hother]
      exact he'
  · intro he
    exact ⟨e, he, if_neg hne⟩

/-- An archive that grows stays one, and takes the bytes it grows by. -/
theorem change_held (h : d.Named) (hmem : (id, f) ∈ d) (hheld : recognized fromStr (id, f) = true)
    (hheld' : recognized fromStr (id, g f) = true) :
    heldBytes fromStr (d.change id g) + f.content.length =
      heldBytes fromStr d + (g f).content.length ∧
      (held fromStr (d.change id g)).length = (held fromStr d).length := by
  induction d with
  | nil => cases hmem
  | cons e rest ih =>
      obtain ⟨k, f'⟩ := e
      have hcons : k ∉ rest.map Prod.fst ∧ (rest.map Prod.fst).Nodup := List.nodup_cons.mp h
      obtain heq | hlater := List.mem_cons.mp hmem
      · cases heq
        have hrest : Directory.change id g rest = rest := by
          have hsame : ∀ e ∈ rest, (if e.1 = id then (e.1, g e.2) else e) = e := by
            intro e he
            rw [if_neg]
            rintro rfl
            exact hcons.1 (List.mem_map_of_mem (f := Prod.fst) he)
          rw [Directory.change, List.map_congr_left hsame, List.map_id']
        have hchange : Directory.change id g ((id, f) :: rest) = (id, g f) :: rest := by
          rw [Directory.change, List.map_cons, if_pos rfl]
          exact congrArg _ hrest
        rw [hchange]
        unfold heldBytes held
        rw [List.filter_cons_of_pos hheld, List.filter_cons_of_pos hheld']
        simp only [sizes, List.map_cons, List.sum_cons, List.length_cons, and_true]
        omega
      · have hne : k ≠ id := by
          rintro rfl
          exact hcons.1 (List.mem_map_of_mem (f := Prod.fst) hlater)
        have hchange : Directory.change id g ((k, f') :: rest) = (k, f') :: Directory.change id g rest := by
          rw [Directory.change, List.map_cons, if_neg hne]
          rfl
        obtain ⟨hbytes, hcount⟩ := ih hcons.2 hlater
        rw [hchange]
        unfold heldBytes held at *
        by_cases hrec : recognized fromStr (k, f') = true
        · rw [List.filter_cons_of_pos hrec, List.filter_cons_of_pos hrec]
          simp only [sizes, List.map_cons, List.sum_cons, List.length_cons] at *
          omega
        · rw [List.filter_cons_of_neg hrec, List.filter_cons_of_neg hrec]
          exact ⟨hbytes, hcount⟩

end Directories

/-! ## Retention -/

/-- The writer of an archive that is open. -/
def Writer.Opens (w : Writer) (id : Uuid) : Prop := ∃ a ∈ w.archives, a.id = id

/-- Archives that are not open may have gone, and nothing else. -/
structure Shrinks (w w' : Writer) : Prop where
  options : w'.options = w.options
  archives : w'.archives = w.archives
  created : w'.created = w.created
  sub : w'.directory.Sublist w.directory
  kept : ∀ id f, w.Opens id → (id, f) ∈ w.directory → (id, f) ∈ w'.directory
  past : ∀ p ∈ w'.past, p ∈ w.past ∨ p.1.Sublist w.directory ∧ p.2 = w.created

/-- The totals are those of the directory. -/
structure Counts (fromStr : FromStr) (w : Writer) (count : Nat) : Prop where
  named : w.directory.Named
  total : w.totalBytes = heldBytes fromStr w.directory
  count : count = (held fromStr w.directory).length

/-- There is room for what is to come. -/
def Room (w : Writer) (count incoming additional : Nat) : Prop :=
  overCount w count incoming = false ∧ overBytes w incoming additional = false

/-- What is still to be looked at is there as it was listed, once each; and every archive
    that is not open is still to be looked at, unless there is room. -/
structure Ahead (fromStr : FromStr) (w : Writer) (count incoming additional : Nat)
    (rest : List Owned) : Prop where
  listed : ∀ o ∈ rest, ∃ f, (o.id, f) ∈ w.directory ∧ recognized fromStr (o.id, f) = true ∧
    f.content.length = o.bytes
  once : (rest.map Owned.id).Nodup
  all : ∀ e ∈ held fromStr w.directory, w.Opens e.1 ∨ e.1 ∈ rest.map Owned.id ∨
    Room w count incoming additional

section Retention

variable {fromStr : FromStr} {w w' w'' : Writer} {count incoming additional : Nat}

theorem Shrinks.refl : Shrinks w w :=
  ⟨rfl, rfl, rfl, .refl _, fun _ _ _ h => h, fun _ h => .inl h⟩

theorem Shrinks.trans (h : Shrinks w w') (h' : Shrinks w' w'') : Shrinks w w'' := by
  refine ⟨h'.options.trans h.options, h'.archives.trans h.archives, h'.created.trans h.created,
    h'.sub.trans h.sub, fun id f hopen hmem => ?_, fun p hp => ?_⟩
  · apply h'.kept id f _ (h.kept id f hopen hmem)
    rw [Writer.Opens, h.archives]
    exact hopen
  · obtain hold | ⟨hnew, hcreated⟩ := h'.past p hp
    · exact h.past p hold
    · exact .inr ⟨hnew.trans h.sub, hcreated.trans h.created⟩

theorem sat_mono {a b c d : Nat} (hac : a ≤ c) (hbd : b ≤ d) : sat a b ≤ sat c d := by
  unfold sat
  omega

/-- With fewer bytes and fewer archives there is still room. -/
theorem Room.mono {count' : Nat} (h : Room w count incoming additional) (hoptions : w'.options = w.options)
    (harchives : w'.archives = w.archives) (htotal : w'.totalBytes ≤ w.totalBytes)
    (hcount : count' ≤ count) : Room w' count' incoming additional := by
  obtain ⟨hover, hbytes⟩ := h
  unfold overCount at hover
  unfold overBytes at hbytes
  rw [decide_eq_false_iff_not] at hover hbytes
  refine ⟨?_, ?_⟩
  · rw [overCount, decide_eq_false_iff_not, hoptions]
    have := sat_mono hcount (Nat.le_refl incoming)
    omega
  · rw [overBytes, decide_eq_false_iff_not, hoptions, harchives]
    have := sat_mono (sat_mono htotal (Nat.le_refl (footerReserve * (w.archives.length + incoming))))
      (Nat.le_refl additional)
    omega

/-- One round of the loop. -/
theorem pruneEntry_spec (now : Uuid → Int) {o : Owned} {rest : List Owned} (hcounts : Counts fromStr w count)
    (hahead : Ahead fromStr w count incoming additional (o :: rest)) :
    Shrinks w (pruneEntry fromStr incoming additional now o (w, count)).1 ∧
      Counts fromStr (pruneEntry fromStr incoming additional now o (w, count)).1
        (pruneEntry fromStr incoming additional now o (w, count)).2 ∧
      Ahead fromStr (pruneEntry fromStr incoming additional now o (w, count)).1
        (pruneEntry fromStr incoming additional now o (w, count)).2 incoming additional rest := by
  obtain ⟨f, hmem, hheld, hlength⟩ := hahead.listed o (List.mem_cons_self ..)
  have hrest : ∀ o' ∈ rest, o'.id ≠ o.id := by
    intro o' ho' heq
    apply (List.nodup_cons.mp hahead.once).1
    rw [← heq]
    exact List.mem_map_of_mem (f := Owned.id) ho'
  have honce : (rest.map Owned.id).Nodup := (List.nodup_cons.mp hahead.once).2
  have hlater : ∀ o' ∈ rest, ∃ f, (o'.id, f) ∈ w.directory ∧ recognized fromStr (o'.id, f) = true ∧
      f.content.length = o'.bytes := fun o' ho' => hahead.listed o' (List.mem_cons_of_mem _ ho')
  -- the archive stays where it is open, or where there is room
  have hstays : (w.Opens o.id ∨ Room w count incoming additional) → Shrinks w w ∧
      Counts fromStr w count ∧ Ahead fromStr w count incoming additional rest := by
    intro hwhy
    refine ⟨.refl, hcounts, hlater, honce, fun e he => ?_⟩
    obtain hopen | hlisted | hroom := hahead.all e he
    · exact .inl hopen
    · rw [List.map_cons, List.mem_cons] at hlisted
      obtain heq | hlisted := hlisted
      · rw [heq]
        exact hwhy.imp_right .inr
      · exact .inr (.inl hlisted)
    · exact .inr (.inr hroom)
  unfold pruneEntry
  dsimp only
  split
  · rename_i hany
    obtain ⟨a, ha, hid⟩ := List.any_eq_true.mp hany
    exact hstays (.inl ⟨a, ha, beq_iff_eq.mp hid⟩)
  · rename_i hany
    split
    · rw [hcounts.named.lookup_eq hmem]
      dsimp only
      rw [if_pos hheld]
      obtain ⟨hbytes, hcount⟩ := remove_held hcounts.named hmem hheld
      have htotal := hcounts.total
      have hcounted := hcounts.count
      refine ⟨⟨rfl, rfl, rfl, remove_sublist _ _, fun id f' hopen hmem' => ?_, fun p hp => ?_⟩,
        ⟨hcounts.named.sublist (remove_sublist _ _), ?_, ?_⟩, fun o' ho' => ?_, honce, fun e he => ?_⟩
      · refine mem_remove.mpr ⟨hmem', fun heq => hany ?_⟩
        obtain ⟨a, ha, hid⟩ := hopen
        exact List.any_eq_true.mpr ⟨a, ha, beq_iff_eq.mpr (hid.trans heq)⟩
      · obtain rfl | hold := List.mem_cons.mp hp
        · exact .inr ⟨.refl _, rfl⟩
        · exact .inl hold
      · show w.totalBytes - o.bytes = heldBytes fromStr (w.directory.remove o.id)
        omega
      · show count - 1 = (held fromStr (w.directory.remove o.id)).length
        omega
      · obtain ⟨f', hmem', hheld', hlength'⟩ := hlater o' ho'
        exact ⟨f', mem_remove.mpr ⟨hmem', hrest o' ho'⟩, hheld', hlength'⟩
      · have hthere : e ∈ held fromStr w.directory := ((remove_sublist _ _).filter _).subset he
        have hne : e.1 ≠ o.id := (mem_remove.mp (List.mem_of_mem_filter he)).2
        obtain hopen | hlisted | hroom := hahead.all e hthere
        · exact .inl hopen
        · rw [List.map_cons, List.mem_cons] at hlisted
          obtain heq | hlisted := hlisted
          · exact absurd heq hne
          · exact .inr (.inl hlisted)
        · refine .inr (.inr (hroom.mono rfl rfl ?_ (Nat.sub_le _ _)))
          exact Nat.sub_le _ _
    · rename_i hover
      apply hstays
      rw [Bool.or_eq_true, Bool.or_eq_true, not_or, not_or] at hover
      exact .inr ⟨Bool.eq_false_iff.mpr hover.1.2, Bool.eq_false_iff.mpr hover.2⟩

/-- All of the loop, or its beginning. -/
theorem pruneLoop_spec (now : Uuid → Int) {examined rest : List Owned} (hcounts : Counts fromStr w count)
    (hahead : Ahead fromStr w count incoming additional (examined ++ rest)) :
    Shrinks w (examined.foldl (fun p o => pruneEntry fromStr incoming additional now o p) (w, count)).1 ∧
      Counts fromStr
        (examined.foldl (fun p o => pruneEntry fromStr incoming additional now o p) (w, count)).1
        (examined.foldl (fun p o => pruneEntry fromStr incoming additional now o p) (w, count)).2 ∧
      Ahead fromStr
        (examined.foldl (fun p o => pruneEntry fromStr incoming additional now o p) (w, count)).1
        (examined.foldl (fun p o => pruneEntry fromStr incoming additional now o p) (w, count)).2
        incoming additional rest := by
  induction examined generalizing w count with
  | nil => exact ⟨.refl, hcounts, hahead⟩
  | cons o examined ih =>
      obtain ⟨hshrinks, hcounts', hahead'⟩ := pruneEntry_spec now hcounts hahead
      obtain ⟨hshrinks', hend⟩ := ih hcounts' hahead'
      exact ⟨hshrinks.trans hshrinks', hend⟩

/-- What is listed is what is there. -/
theorem ownedOf_spec (fromStr : FromStr) (count incoming additional : Nat) {listing : Directory}
    (hperm : listing.Perm w.directory) (hnamed : w.directory.Named) :
    ((ownedOf fromStr listing).map Owned.bytes).sum = heldBytes fromStr w.directory ∧
      (ownedOf fromStr listing).length = (held fromStr w.directory).length ∧
      Ahead fromStr w count incoming additional (ownedOf fromStr listing) := by
  have howned : (ownedOf fromStr listing).Perm ((held fromStr w.directory).map
      fun e => ⟨e.1, e.2.content.length, e.2.modified⟩) :=
    (List.mergeSort_perm _ _).trans ((hperm.filter _).map _)
  have hids : ((ownedOf fromStr listing).map Owned.id).Perm ((held fromStr w.directory).map Prod.fst) := by
    have := howned.map Owned.id
    rwa [List.map_map] at this
  refine ⟨?_, ?_, fun o ho => ?_, ?_, fun e he => ?_⟩
  · have := (howned.map Owned.bytes).sum_eq
    rwa [List.map_map] at this
  · rw [howned.length_eq, List.length_map]
  · obtain ⟨e, he, rfl⟩ := List.mem_map.mp (howned.mem_iff.mp ho)
    obtain ⟨hmem, hheld⟩ := List.mem_filter.mp he
    exact ⟨e.2, hmem, hheld, rfl⟩
  · exact hids.nodup_iff.mpr ((List.filter_sublist.map Prod.fst).nodup hnamed)
  · exact .inr (.inl (hids.mem_iff.mpr (List.mem_map_of_mem (f := Prod.fst) he)))

/-- Retention keeps what is open, counts right, and removes all else that is in the way. -/
theorem prune_spec (fromStr : FromStr) (incoming additional : Nat) {c : PruneCourse}
    (hnamed : w.directory.Named) (hperm : c.listing.Perm w.directory) :
    Shrinks w (w.prune fromStr incoming additional c).1 ∧
      (w.totalBytes = heldBytes fromStr w.directory →
        (w.prune fromStr incoming additional c).1.totalBytes =
          heldBytes fromStr (w.prune fromStr incoming additional c).1.directory) ∧
      ((w.prune fromStr incoming additional c).2 = true →
        (w.prune fromStr incoming additional c).1.totalBytes =
          heldBytes fromStr (w.prune fromStr incoming additional c).1.directory ∧
        ∀ e ∈ held fromStr (w.prune fromStr incoming additional c).1.directory, w.Opens e.1 ∨
          Room (w.prune fromStr incoming additional c).1
            (held fromStr (w.prune fromStr incoming additional c).1.directory).length incoming additional) := by
  have hpruned : ∀ examined rest : List Owned, examined ++ rest = ownedOf fromStr c.listing →
      let w' := (examined.foldl (fun p o => pruneEntry fromStr incoming additional c.now o p)
        ({ w with totalBytes := ((ownedOf fromStr c.listing).map Owned.bytes).sum },
          (ownedOf fromStr c.listing).length)).1
      Shrinks w w' ∧ w'.totalBytes = heldBytes fromStr w'.directory ∧
        (rest = [] → ∀ e ∈ held fromStr w'.directory, w.Opens e.1 ∨
          Room w' (held fromStr w'.directory).length incoming additional) := by
    intro examined rest hsplit
    have hstart : Shrinks w { w with totalBytes := ((ownedOf fromStr c.listing).map Owned.bytes).sum } :=
      ⟨rfl, rfl, rfl, .refl _, fun _ _ _ h => h, fun _ h => .inl h⟩
    generalize hcounted : { w with totalBytes := ((ownedOf fromStr c.listing).map Owned.bytes).sum } = w₀
      at *
    have hdirectory : w₀.directory = w.directory := by rw [← hcounted]
    have htotals : w₀.totalBytes = ((ownedOf fromStr c.listing).map Owned.bytes).sum := by rw [← hcounted]
    rw [← hdirectory] at hperm hnamed
    obtain ⟨htotal, hcount, hahead⟩ := ownedOf_spec fromStr
      (ownedOf fromStr c.listing).length incoming additional hperm hnamed
    have hcut : Ahead fromStr w₀ (ownedOf fromStr c.listing).length incoming additional
        (examined ++ rest) := by
      rw [hsplit]
      exact hahead
    obtain ⟨hshrinks, hcounts, hdone⟩ := pruneLoop_spec c.now ⟨hnamed, htotals.trans htotal, hcount⟩ hcut
    refine ⟨hstart.trans hshrinks, hcounts.total, fun hrest e he => ?_⟩
    rw [← hcounts.count]
    subst hrest
    obtain hopen | hnone | hroom := hdone.all e he
    · left
      rw [Writer.Opens, hshrinks.archives, hstart.archives] at hopen
      exact hopen
    · cases hnone
    · exact .inr hroom
  unfold Writer.prune
  split
  · exact ⟨.refl, id, (by rintro ⟨⟩)⟩
  · rename_i failure _
    dsimp only
    split
    · obtain ⟨hshrinks, htotal, -⟩ := hpruned _ _ (List.take_append_drop _ _)
      exact ⟨hshrinks, fun _ => htotal, (by rintro ⟨⟩)⟩
    · obtain ⟨hshrinks, htotal, hdone⟩ := hpruned _ [] (List.append_nil _)
      exact ⟨hshrinks, fun _ => htotal, fun _ => ⟨htotal, hdone rfl⟩⟩

end Retention

/-! ## Records -/

section Records

variable {fromStr : FromStr} {timeText : Int → String} {h : Header}

/-- The JSON library reads the header of an archive as it was written. -/
def Reads (fromStr : FromStr) (timeText : Int → String) (h : Header) : Prop :=
  ∃ header, fromStr (startedRecord timeText h) = some header ∧ header "format" = some FORMAT ∧
    header "event" = some "started" ∧ header "session_id" = some (hyphenated h.sessionId)

theorem recordBytes_length (members : List (String × Bytes)) :
    (recordBytes members).length = (Json.object members).length + 1 := by
  rw [recordBytes, List.length_append, List.length_singleton]

theorem startedRecord_length (htime : ∀ t, (timeText t).utf8ByteSize ≤ 35)
    (hproject : Sync.validateProjectName h.project = .ok ()) :
    (startedRecord timeText h).length ≤ footerReserve := by
  have hobject := Json.object_length_le [("event", Json.str "started"), ("format", Json.str FORMAT),
    ("project", Json.str h.project), ("session_id", Json.str (hyphenated h.sessionId)),
    ("started_at", Json.str (timeText h.startedAt))]
  have hprojects := Json.str_length_le h.project
  have htimes := Json.str_length_le (timeText h.startedAt)
  have hid := History.hyphenated_length h.sessionId
  have := History.project_size hproject
  have := htime h.startedAt
  have hkeys : (Json.str "event").length = 7 ∧ (Json.str "format").length = 8 ∧
      (Json.str "project").length = 9 ∧ (Json.str "session_id").length = 12 ∧
      (Json.str "started_at").length = 12 ∧ (Json.str "started").length = 9 ∧
      (Json.str FORMAT).length = 22 := by decide +kernel
  simp only [List.map_cons, List.map_nil, List.sum_cons, List.sum_nil, Json.memberSize] at hobject
  unfold startedRecord footerReserve
  rw [recordBytes_length]
  omega

/-- The first line of a file ends with the first newline. -/
theorem firstLine_append {line : Bytes} (hline : (10 : UInt8) ∉ line) (hlength : line.length + 1 ≤ 4096)
    (rest : Bytes) : firstLine (line ++ [10] ++ rest) = line ++ [10] := by
  have hstart : (line ++ [10] ++ rest).take 4096 = line ++ 10 :: rest.take (4096 - (line.length + 1)) := by
    have hlen : (line ++ [10]).length = line.length + 1 := List.length_append
    rw [List.take_append, hlen, List.take_of_length_le (by rw [hlen]; omega), List.append_assoc]
    rfl
  show ((line ++ [10] ++ rest).take 4096).take (((line ++ [10] ++ rest).take 4096).idxOf 10 + 1) =
    line ++ [10]
  rw [hstart, List.idxOf_append_of_notMem hline, List.idxOf_cons_self, Nat.add_zero, List.take_append,
    List.take_of_length_le (Nat.le_succ _), Nat.add_sub_cancel_left]
  rfl

/-- The header is the first line of the file, whatever comes after it. -/
theorem firstLine_started (hlength : (startedRecord timeText h).length ≤ 4096) (rest : Bytes) :
    firstLine (startedRecord timeText h ++ rest) = startedRecord timeText h := by
  apply firstLine_append
  · apply Json.newline_notMem_object
    simp only [List.mem_cons, List.not_mem_nil, or_false, forall_eq_or_imp, forall_eq]
    exact ⟨Json.newline_notMem_str _, Json.newline_notMem_str _, Json.newline_notMem_str _,
      Json.newline_notMem_str _, Json.newline_notMem_str _⟩
  · rw [startedRecord, recordBytes_length] at hlength
    exact hlength

/-- An archive with its header is recognized. -/
theorem recognized_started (hreads : Reads fromStr timeText h)
    (hlength : (startedRecord timeText h).length ≤ 4096) {f : ArchiveFile} {rest : Bytes}
    (hregular : f.regular = true) (hcontent : f.content = startedRecord timeText h ++ rest) :
    recognized fromStr (h.sessionId, f) = true := by
  obtain ⟨header, hheader, hformat, hevent, hid⟩ := hreads
  rw [recognized, hregular, Bool.true_and, hasHeader, hcontent, firstLine_started hlength, hheader]
  dsimp only
  rw [hformat, hevent, hid]
  simp

theorem orNull_length_le {value : Option Bytes} {n : Nat} (hn : 4 ≤ n)
    (h : ∀ x, value = some x → x.length ≤ n) : (orNull value).length ≤ n := by
  cases value with
  | none => exact hn
  | some x => exact h x rfl

theorem issueName_length (i : Issue) : (Json.str i.name).length ≤ 16 := by
  cases i <;> decide +kernel

theorem issueNames_length (issues : Issues) :
    (Json.array ((issueNames issues).map Json.str)).length ≤ 104 := by
  have harray := Json.array_length_le ((issueNames issues).map Json.str)
  have hsum : (((issueNames issues).map Json.str).map fun x => x.length + 1).sum ≤
      ((allIssues.map fun i => (Json.str i.name).length + 1)).sum := by
    rw [issueNames, List.map_map, List.map_map]
    exact (List.filter_sublist.map _).sum_le_sum fun _ _ => Nat.zero_le _
  have hall : ((allIssues.map fun i => (Json.str i.name).length + 1)).sum ≤ 102 := by decide +kernel
  omega

/-- What a session ends with: a code of 32 bits, in a project with a valid name. -/
structure SessionInfo.Proper (info : SessionInfo) : Prop where
  project : Sync.validateProjectName info.project = .ok ()
  exitCode : ∀ code, info.exitCode = some code → -2 ^ 31 ≤ code ∧ code < 2 ^ 31

/-- A footer fits in what is reserved for it. -/
theorem finishedRecord_length (htime : ∀ t, (timeText t).utf8ByteSize ≤ 35) (id : Uuid)
    {info : SessionInfo} (hinfo : info.Proper) (issues : Issues) {tally : Tally}
    (hobserved : tally.observed ≤ u64Max) (harchived : tally.archived ≤ u64Max)
    (hdropped : tally.dropped ≤ u64Max) :
    (finishedRecord timeText id info issues tally).length ≤ footerReserve := by
  have hnum : ∀ n ≤ u64Max, (Json.nat n).length ≤ 20 := by
    intro n hn
    unfold u64Max at hn
    exact Json.nat_length_le (by decide) (by omega)
  have hobserveds := hnum _ hobserved
  have harchiveds := hnum _ harchived
  have hdroppeds := hnum _ hdropped
  have hissues := issueNames_length issues
  have htruncated := Json.bool_length_le (allIssues.any issues)
  have houtput := Json.bool_length_le info.outputTruncated
  have hprojects := Json.str_length_le info.project
  have := History.project_size hinfo.project
  have hid := History.hyphenated_length id
  have hended : (orNull (info.endedAt.map fun t => Json.str (timeText t))).length ≤ 212 := by
    apply orNull_length_le (by decide)
    intro x hx
    obtain ⟨t, -, rfl⟩ := Option.map_eq_some_iff.mp hx
    have := Json.str_length_le (timeText t)
    have := htime t
    omega
  have hcode : (orNull (info.exitCode.map Json.int)).length ≤ 11 := by
    apply orNull_length_le (by decide)
    intro x hx
    obtain ⟨code, hcode, rfl⟩ := Option.map_eq_some_iff.mp hx
    obtain ⟨hlow, hhigh⟩ := hinfo.exitCode code hcode
    cases code with
    | ofNat n =>
        apply Json.nat_length_le (by decide)
        have : (n : Int) < 2 ^ 31 := hhigh
        omega
    | negSucc n =>
        rw [Json.int, List.length_cons]
        have : (Json.nat (n + 1)).length ≤ 10 := by
          apply Json.nat_length_le (by decide)
          omega
        omega
  have hreason : (orNull (info.terminationReason.map fun r => Json.str (reasonName r))).length ≤ 24 := by
    apply orNull_length_le (by decide)
    intro x hx
    obtain ⟨r, -, rfl⟩ := Option.map_eq_some_iff.mp hx
    cases r <;> decide +kernel
  have hkeys : (Json.str "archive_issues").length = 16 ∧ (Json.str "archive_truncated").length = 19 ∧
      (Json.str "archived_output_bytes").length = 23 ∧ (Json.str "dropped_bytes").length = 15 ∧
      (Json.str "ended_at").length = 10 ∧ (Json.str "event").length = 7 ∧
      (Json.str "exit_code").length = 11 ∧ (Json.str "observed_bytes").length = 16 ∧
      (Json.str "output_truncated").length = 18 ∧ (Json.str "project").length = 9 ∧
      (Json.str "session_id").length = 12 ∧ (Json.str "termination_reason").length = 20 ∧
      (Json.str "finished").length = 10 := by decide +kernel
  unfold finishedRecord
  rw [recordBytes_length]
  apply Nat.le_trans (Nat.succ_le_succ (Json.object_length_le _))
  simp only [List.map_cons, List.map_nil, List.sum_cons, List.sum_nil, Json.memberSize]
  unfold footerReserve
  omega

/-- A record is at least as long as its text. -/
theorem outputRecord_length (timeText : Int → String) (now : Int) (text : Text) :
    byteLength text ≤ (outputRecord timeText now text).length := by
  unfold outputRecord
  rw [recordBytes_length]
  have hmember : (Json.str (String.ofList text)).length ≤ (Json.object [("event", Json.str "output"),
      ("text", Json.str (String.ofList text)), ("timestamp", Json.str (timeText now))]).length :=
    Json.object_le_length (m := ("text", Json.str (String.ofList text))) (by simp)
  have htext := Json.str_le_length (String.ofList text)
  rw [Json.utf8ByteSize_ofList] at htext
  have hlength : byteLength text = (text.map Char.utf8Size).sum := rfl
  omega

end Records

end VivadoServer.Diagnostics

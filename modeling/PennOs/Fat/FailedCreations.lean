import PennOs.Fat.Unlinks

set_option autoImplicit false

/- How `add_dirent_to_dir` ends on any mounted volume, whatever the host does. -/
namespace PennOs.Fat

open Fs

variable {s t u v w : Fs} {b count d i k : Nat} {buf : Buffer} {e : DirEntry} {p q : Nat × Nat}
  {err : PennFatErr}
  {now : UInt64}

section Writing

/-- Nothing changed but the bytes of the image and what the host still has to answer. -/
structure Framed (s t : Fs) : Prop where
  same : t = { s with file := t.file, fileSize := t.fileSize, host := t.host }

instance : Std.Refl Framed := ⟨fun _ => ⟨rfl⟩⟩

instance : IsTrans Fs Framed where
  trans s t u first second := by
    constructor
    rw [second.same, first.same]

theorem Framed.mounted (framed : Framed s t) (mounted : s.calm.Mounted k) : t.calm.Mounted k := by
  rw [framed.same]
  exact mounted.of_eq rfl rfl rfl rfl rfl rfl rfl rfl

theorem Framed.gBlockSize (framed : Framed s t) : t.gBlockSize = s.gBlockSize := by
  rw [framed.same]

theorem Framed.totalEntries (framed : Framed s t) : totalEntries t = totalEntries s := by
  rw [framed.same]
  rfl

theorem Framed.entriesPerBlock (framed : Framed s t) : t.entriesPerBlock = s.entriesPerBlock := by
  rw [Fs.entriesPerBlock, Fs.entriesPerBlock, framed.gBlockSize]

/-- The FAT entries fill the first blocks. -/
theorem entry_inside (mounted : s.calm.Mounted k) (inside : i < totalEntries s) :
    2 * i + 2 ≤ k * s.gBlockSize := by
  have total : totalEntries s = k * s.gBlockSize / 2 := totalEntries_mounted (s := s.calm) mounted
  omega

theorem totalEntries_le (mounted : s.calm.Mounted k) : totalEntries s ≤ 65536 := by
  have total : totalEntries s = k * s.gBlockSize / 2 := totalEntries_mounted (s := s.calm) mounted
  have product : k * s.gBlockSize ≤ 32 * 4096 := Nat.mul_le_mul mounted.count.2 mounted.blockSize_bounds.2.1
  omega

theorem fatMapped_inside (mounted : s.calm.Mounted k) (inside : i < totalEntries s) :
    s.fatMapped i = true := by
  have total : totalEntries s = k * s.gBlockSize / 2 := totalEntries_mounted (s := s.calm) mounted
  exact mounted.fatMapped (s := s.calm) (total ▸ inside)

theorem OnlyHost.framed (only : OnlyHost s t) : Framed s t := by
  constructor
  rw [only.same]

theorem setFat_framed (s : Fs) (i value : Nat) : Framed s (s.setFat i value) := ⟨rfl⟩

/-- The first byte of an entry, which tells whether it is live. -/
def Fs.mark (s : Fs) (p : Nat × Nat) : UInt8 := (s.dirent p).name0

theorem live_mark : (s.dirent p).live = true ↔ s.mark p ≠ 0 ∧ s.mark p ≠ 1 ∧ s.mark p ≠ 2 :=
  DirEntry.live_iff

theorem mark_eq (s : Fs) (p : Nat × Nat) : s.mark p = s.block p.1 (64 * p.2) := rfl

/-- `count` bytes of the buffer came into the block. -/
structure Overwrites (s : Fs) (b count : Nat) (buf : Buffer) (t : Fs) : Prop extends Framed s t where
  bytes : t.file = overlay s.file (s.blockOffset b) count buf

/-- The bytes that `write_block` has put into the block when it fails. -/
def Fs.written (s : Fs) : Nat :=
  match s.host with
  | .done :: .short count :: _ => min count (s.gBlockSize - 1)
  | .done :: .done :: _ => s.gBlockSize
  | _ => 0

theorem written_le (s : Fs) : s.written ≤ s.gBlockSize := by
  unfold Fs.written
  split
  · omega
  · exact Nat.le_refl _
  · exact Nat.zero_le _

theorem overlay_nothing (bytes : Nat → UInt8) (start : Nat) (buf : Buffer) :
    overlay bytes start 0 buf = bytes := by
  funext a
  exact overlay_outside (by omega)

/-- A `write_block` that fails. -/
theorem writeBlock_fails (opened : s.fdOpen = true) (stops : ¬ s.Carries 3) :
    ∃ t, writeBlock buf b s = some (false, t) ∧ Overwrites s b s.written buf t := by
  have nothing : ∀ t, Framed s t → t.file = s.file → s.written = 0 → Overwrites s b s.written buf t := by
    intro t framed file none
    refine ⟨framed, ?_⟩
    rw [none, overlay_nothing, file]
  unfold writeBlock
  rw [Prog.get_bind, if_neg (gFsFd_of_open opened)]
  match host : s.host with
  | [] =>
      refine absurd ?_ stops
      intro outcome member
      rw [host] at member
      cases member
  | .failed :: rest =>
      refine ⟨{ s with host := rest }, ?_, nothing _ ⟨rfl⟩ rfl ?_⟩
      · simp [hostOk, hostCall, Prog.bind_run, host]
      · simp [Fs.written, host]
  | .short count :: rest =>
      refine ⟨{ s with host := rest }, ?_, nothing _ ⟨rfl⟩ rfl ?_⟩
      · simp [hostOk, hostCall, Prog.bind_run, host]
      · simp [Fs.written, host]
  | .done :: [] =>
      refine absurd ?_ stops
      intro outcome member
      rw [host] at member
      exact List.mem_singleton.mp member
  | .done :: .failed :: rest =>
      refine ⟨{ s with host := rest }, ?_, nothing _ ⟨rfl⟩ rfl ?_⟩
      · simp [hostOk, hostCall, Prog.bind_run, host]
      · simp [Fs.written, host]
  | .done :: .short count :: rest =>
      refine ⟨({ s with host := rest } : Fs).putBytes (s.blockOffset b) (min count (s.gBlockSize - 1)) buf,
        ?_, ⟨rfl⟩, ?_⟩
      · simp [hostOk, hostCall, Prog.bind_run, host, opened, Prog.modify, blockOffset]
      · simp [Fs.written, host, putBytes]
  | .done :: .done :: [] =>
      refine absurd ?_ stops
      intro outcome member
      rw [host] at member
      simpa using member
  | .done :: .done :: outcome :: rest =>
      have other : outcome ≠ .done := by
        rintro rfl
        refine stops fun outcome member => ?_
        rw [host] at member
        simpa using member
      refine ⟨({ s with host := rest } : Fs).putBlock b buf, ?_, ⟨rfl⟩, ?_⟩
      · cases outcome with
        | done => exact absurd rfl other
        | failed =>
            simp [hostOk, hostCall, Prog.bind_run, host, opened, Prog.modify, putBlock, putBytes, blockOffset]
        | short count =>
            simp [hostOk, hostCall, Prog.bind_run, host, opened, Prog.modify, putBlock, putBytes, blockOffset]
      · simp [Fs.written, host, putBlock, putBytes, blockOffset]

theorem writeBlock_carried (opened : s.fdOpen = true) (carried : s.Carries 3) :
    ∃ t, writeBlock buf b s = some (true, t) ∧ t = (s.skip 3).putBlock b buf ∧
      Overwrites s b s.gBlockSize buf t :=
  ⟨_, (writeBlock_true_iff opened).mpr ⟨carried, rfl⟩, rfl, ⟨rfl⟩, rfl⟩

theorem writeBlock_overwrites {ok : Bool} (opened : s.fdOpen = true)
    (run : writeBlock buf b s = some (ok, t)) :
    ∃ count ≤ s.gBlockSize, Overwrites s b count buf t := by
  by_cases carried : s.Carries 3
  · obtain ⟨x, run', _, torn⟩ := @writeBlock_carried _ b buf opened carried
    cases run.symm.trans run'
    exact ⟨_, Nat.le_refl _, torn⟩
  · obtain ⟨x, run', torn⟩ := @writeBlock_fails _ b buf opened carried
    cases run.symm.trans run'
    exact ⟨_, written_le s, torn⟩

variable (mounted : s.calm.Mounted k) (low : k ≤ b) (bound : b < 65536)

include mounted low bound

/-- Block writes do not reach the FAT. -/
theorem Overwrites.fat (torn : Overwrites s b count buf t) (inside : i < totalEntries s) :
    t.fat i = s.fat i := by
  have offset : s.blockOffset b = b * s.gBlockSize := mounted.blockOffset_eq bound
  have behind : k * s.gBlockSize ≤ b * s.gBlockSize := Nat.mul_le_mul_right _ low
  have half := entry_inside mounted inside
  apply fat_congr
  · rw [torn.bytes]
    exact overlay_outside (by omega)
  · rw [torn.bytes]
    exact overlay_outside (by omega)

omit low

theorem Overwrites.mark (torn : Overwrites s b count buf t) (fits : count ≤ s.gBlockSize)
    (bound' : p.1 < 65536) (inside : p.2 < s.entriesPerBlock) :
    t.mark p = if p.1 = b ∧ 64 * p.2 < count then buf (64 * p.2) else s.mark p := by
  have room : 64 * p.2 < s.gBlockSize := by
    have slot := mounted.slot_inside inside
    have slot' : 64 * p.2 + 64 ≤ s.gBlockSize := slot
    omega
  have offset : s.blockOffset b = b * s.gBlockSize := mounted.blockOffset_eq bound
  have offset' : s.blockOffset p.1 = p.1 * s.gBlockSize := mounted.blockOffset_eq bound'
  have offset'' : t.blockOffset p.1 = p.1 * s.gBlockSize := by
    rw [← offset', blockOffset, blockOffset, torn.gBlockSize]
  have after : t.mark p = overlay s.file (b * s.gBlockSize) count buf (p.1 * s.gBlockSize + 64 * p.2) := by
    rw [mark_eq, block, torn.gBlockSize, if_pos room, torn.bytes, offset, offset'']
  have before : s.mark p = s.file (p.1 * s.gBlockSize + 64 * p.2) := by
    rw [mark_eq, block, if_pos room, offset']
  rw [after, before]
  split
  · next hit =>
      rw [hit.1, overlay_inside (by omega) (by omega), Nat.add_sub_cancel_left]
  · next miss =>
      apply overlay_outside
      by_cases here : p.1 = b
      · rw [here]
        omega
      · have away := s.block_apart (Ne.symm here) room
        omega

/-- What the write of one entry does to the slots. -/
theorem Overwrites.entered (torn : Overwrites s b count (setDirentAt (s.block b) i e) t)
    (fits : count ≤ s.gBlockSize) (bound' : p.1 < 65536) (inside : p.2 < s.entriesPerBlock) :
    t.mark p = if p = (b, i) ∧ 64 * i < count then e.name0 else s.mark p := by
  rw [torn.mark mounted bound fits bound' inside]
  have byte : setDirentAt (s.block b) i e (64 * p.2) = if p.2 = i then e.name0 else s.mark (b, p.2) := by
    have entry := congrArg DirEntry.name0 (direntAt_setDirentAt (s.block b) i p.2 e)
    split
    · next same => exact entry.trans (congrArg DirEntry.name0 (if_pos same))
    · next apart => exact entry.trans (congrArg DirEntry.name0 (if_neg apart))
  rw [byte]
  by_cases block : p.1 = b
  · subst block
    by_cases slot : p.2 = i
    · subst slot
      simp only [true_and, ↓reduceIte]
    · have other : p ≠ (p.1, i) := fun same => slot (congrArg Prod.snd same)
      simp only [slot, other, true_and, false_and, ↓reduceIte, ite_self]
  · have other : p ≠ (b, i) := fun same => block (congrArg Prod.fst same)
    simp only [block, other, false_and, ↓reduceIte]

end Writing

section Marking

variable (mounted : s.calm.Mounted k)

include mounted

theorem mark_setFat (value : Nat) (inside : i < totalEntries s) (low : k ≤ p.1) (bound : p.1 < 65536) :
    (s.setFat i value).mark p = s.mark p := by
  have entries : i < k * s.gBlockSize / 2 := by
    have half := entry_inside mounted inside
    omega
  have same : (s.setFat i value).block p.1 = s.block p.1 :=
    mounted.block_setFat (s := s.calm) value low bound entries
  rw [mark_eq, mark_eq, same]

end Marking

section Searching

theorem hostOk_total (s : Fs) : ∃ ok t, hostOk s = some (ok, t) := by
  have answered : ∃ outcome t, hostCall s = some (outcome, t) := by
    unfold hostCall
    cases s.host with
    | nil => exact ⟨_, _, rfl⟩
    | cons outcome rest => exact ⟨_, _, rfl⟩
  obtain ⟨outcome, t, run⟩ := answered
  rw [hostOk, Prog.bind_of_run run]
  cases outcome with
  | done => exact ⟨_, _, rfl⟩
  | failed => exact ⟨_, _, rfl⟩
  | short count => exact ⟨_, _, rfl⟩

theorem readBlock_total (s : Fs) (b : Nat) : ∃ read t, readBlock b s = some (read, t) := by
  unfold readBlock
  rw [Prog.get_bind, Prog.ite_run]
  split
  · exact ⟨_, _, rfl⟩
  obtain ⟨sought, t, first⟩ := hostOk_total s
  rw [Prog.bind_of_run first, Prog.ite_run]
  split
  · exact ⟨_, _, rfl⟩
  obtain ⟨got, u, second⟩ := hostOk_total t
  rw [Prog.bind_of_run second, Prog.ite_run]
  split
  · exact ⟨_, _, rfl⟩
  rw [Prog.ite_run]
  split
  · exact ⟨_, _, rfl⟩
  · exact ⟨_, _, rfl⟩

theorem findSlotLoop_host (fuel cur : Nat) : Prog.Keeps OnlyHost (findSlotLoop fuel cur) := by
  induction fuel generalizing cur with
  | zero => exact .fault
  | succ fuel ih =>
      unfold findSlotLoop
      refine .ite (fun _ => .pure _) fun _ => .bind (readBlock_host cur) fun read => ?_
      cases read with
      | none => exact .pure _
      | some buf =>
          refine .bind .get fun s => ?_
          split
          · exact .pure _
          · exact .bind (fatGet_host cur) ih

theorem findSlotLoop_named (fuel cur : Nat) : ErrorsNamed (findSlotLoop fuel cur) := by
  intro s err t run
  induction fuel generalizing s cur with
  | zero => cases run
  | succ fuel ih =>
      unfold findSlotLoop at run
      split at run
      · cases run
      obtain ⟨read, u, _, run⟩ := Prog.bind_inv run
      cases read with
      | none =>
          cases run
          decide
      | some buf =>
          dsimp only at run
          rw [Prog.get_bind] at run
          cases slot : freeSlot buf u.entriesPerBlock with
          | some index =>
              rw [slot] at run
              cases run
          | none =>
              rw [slot] at run
              obtain ⟨next, v, _, run⟩ := Prog.bind_inv run
              exact ih next v run

/-- A free slot of a block that the image holds. -/
structure Spot (s : Fs) (p : Nat × Nat) : Prop where
  low : 1 ≤ p.1
  small : p.1 < 65536
  stored : s.blockOffset p.1 + s.gBlockSize ≤ s.fileSize
  inside : p.2 < s.entriesPerBlock
  free : s.mark p = 0 ∨ s.mark p = 1

theorem OnlyHost.mark (only : OnlyHost s t) (p : Nat × Nat) : t.mark p = s.mark p := by
  rw [only.same]
  rfl

theorem OnlyHost.fat (only : OnlyHost s t) (i : Nat) : t.fat i = s.fat i := by
  rw [only.same]
  rfl

theorem findSlotLoop_spot (opened : s.fdOpen = true) (fuel : Nat) {cur : Nat} (small : cur < 65536) :
    Prog.Hoare (OnlyHost s) (findSlotLoop fuel cur) fun res _ => ∀ p, res = .ok (some p) → Spot s p := by
  induction fuel generalizing cur with
  | zero => exact .fault
  | succ fuel ih =>
      unfold findSlotLoop
      refine .ite (fun _ => .pure fun _ _ _ => (by rintro ⟨⟩)) fun proper => ?_
      refine .seq (fun read t => OnlyHost s t ∧ ∀ buf, read = some buf →
        s.blockOffset cur + s.gBlockSize ≤ s.fileSize ∧ buf = s.block cur) ?_ fun read => ?_
      · intro t read u only run
        refine ⟨Trans.trans only (readBlock_host cur t read u run), ?_⟩
        rintro buf rfl
        obtain ⟨_, stored, same, _⟩ := (readBlock_some_iff (only.fdOpen.trans opened)).mp run
        rw [only.same] at stored same
        exact ⟨stored, same⟩
      · cases read with
        | none => exact .pure fun _ _ _ => (by rintro ⟨⟩)
        | some buf =>
            refine .get fun t => ?_
            rintro t' res u ⟨rfl, only, known⟩ run
            obtain ⟨stored, rfl⟩ := known buf rfl
            have slots : t'.entriesPerBlock = s.entriesPerBlock := only.framed.entriesPerBlock
            rw [slots] at run
            cases scan : freeSlot (s.block cur) s.entriesPerBlock with
            | some index =>
                rw [scan] at run
                cases run
                rintro p same
                cases same
                obtain ⟨_, inside, test, _⟩ := Search.firstFrom_some scan
                have low : 1 ≤ cur := by
                  have used := (not_or.mp proper).2
                  simp only [fatFree] at used
                  omega
                simp only [DirEntry.reusable, Bool.or_eq_true, beq_iff_eq] at test
                exact ⟨low, small, stored, by omega, test⟩
            | none =>
                rw [scan] at run
                obtain ⟨next, v, got, rest⟩ := Prog.bind_inv run
                unfold fatGet at got
                split at got
                · cases got
                  exact ih (fat_lt _ cur) _ res u only rest
                · cases got

/-- The search of `add_dirent_to_dir` comes to its end. -/
structure Searched (u : Fs) (d : Nat) (spot : Option (Nat × Nat)) (v : Fs) : Prop where
  room : u.Carries 1
  search : findSlotLoop (chainFuel + 1) d (u.skip 1) = some (.ok spot, v)

theorem Searched.unique {spot spot' : Option (Nat × Nat)} {v' : Fs} (first : Searched u d spot v)
    (second : Searched u d spot' v') : spot = spot' ∧ v = v' := by
  have same := first.search.symm.trans second.search
  simp only [Option.some.injEq, Prod.mk.injEq, Except.ok.injEq] at same
  exact same

theorem skip_onlyHost (s : Fs) (count : Nat) : OnlyHost s (s.skip count) := ⟨List.drop_suffix _ _, rfl⟩

theorem Searched.only {spot : Option (Nat × Nat)} (searched : Searched u d spot v) : OnlyHost u v :=
  Trans.trans (skip_onlyHost u 1) (findSlotLoop_host _ _ _ _ _ searched.search)

theorem Searched.spot (opened : u.fdOpen = true) (small : d < 65536) (searched : Searched u d (some p) v) :
    Spot u p :=
  findSlotLoop_spot opened _ small _ _ _ (skip_onlyHost u 1) searched.search p rfl

end Searching

section Putting

/-- No FAT entry changed, and behind the FAT no slot but those that now start with 0. -/
structure Quiet (k : Nat) (u w : Fs) : Prop extends Framed u w where
  fat : ∀ i < totalEntries u, w.fat i = u.fat i
  mark : ∀ q : Nat × Nat, k ≤ q.1 → q.1 < 65536 → q.2 < u.entriesPerBlock →
    w.mark q = u.mark q ∨ w.mark q = 0

/-- No FAT entry changed, and behind the FAT no slot but `p`, which now starts with `c`. -/
structure Marked (k : Nat) (u : Fs) (p : Nat × Nat) (c : UInt8) (w : Fs) : Prop extends Framed u w where
  fat : ∀ i < totalEntries u, w.fat i = u.fat i
  mark : ∀ q : Nat × Nat, k ≤ q.1 → q.1 < 65536 → q.2 < u.entriesPerBlock →
    w.mark q = if q = p then c else u.mark q

/-- The block `b` hangs on the chain behind `last`, and only its slots changed. -/
structure Grown (k : Nat) (u : Fs) (b last : Nat) (w : Fs) : Prop extends Framed u w where
  fat : ∀ i < totalEntries u, w.fat i = if i = last then b else if i = b then fatEoc else u.fat i
  mark : ∀ q : Nat × Nat, k ≤ q.1 → q.1 < 65536 → q.2 < u.entriesPerBlock → q.1 ≠ b → w.mark q = u.mark q

theorem OnlyHost.quiet (only : OnlyHost u w) : Quiet k u w where
  toFramed := only.framed
  fat i _ := only.fat i
  mark q _ _ _ := .inl (only.mark q)

theorem Overwrites.of_host (only : OnlyHost u v) (torn : Overwrites v b count buf w) :
    Overwrites u b count buf w := by
  refine ⟨Trans.trans only.framed torn.toFramed, ?_⟩
  rw [torn.bytes, only.same]
  rfl

theorem Overwrites.marked (mounted : u.calm.Mounted k) (behind : k ≤ p.1) (spot : Spot u p)
    (fits : count ≤ u.gBlockSize)
    (torn : Overwrites u p.1 count (setDirentAt (u.block p.1) p.2 e) w) (reached : 64 * p.2 < count) :
    Marked k u p e.name0 w where
  toFramed := torn.toFramed
  fat i inside := torn.fat mounted behind spot.small inside
  mark q _ bound inside := by
    rw [torn.entered mounted spot.small fits bound inside]
    simp only [reached, and_true]

/-- A write that stops in front of the slot does not change it. -/
theorem Overwrites.quiet (mounted : u.calm.Mounted k) (behind : k ≤ p.1) (spot : Spot u p)
    (fits : count ≤ u.gBlockSize)
    (torn : Overwrites u p.1 count (setDirentAt (u.block p.1) p.2 e) w) (short : count ≤ 64 * p.2) :
    Quiet k u w where
  toFramed := torn.toFramed
  fat i inside := torn.fat mounted behind spot.small inside
  mark q _ bound inside := by
    left
    have missed : ¬ 64 * p.2 < count := by omega
    rw [torn.entered mounted spot.small fits bound inside]
    simp only [missed, and_false, ↓reduceIte]

theorem readBlock_stops (opened : v.fdOpen = true) (stops : ¬ v.Carries 2) :
    ∃ w, readBlock b v = some (none, w) ∧ OnlyHost v w := by
  obtain ⟨read, w, run⟩ := readBlock_total v b
  cases read with
  | none => exact ⟨w, run, readBlock_host b v none w run⟩
  | some buf => exact absurd ((readBlock_some_iff opened).mp run).1 stops

theorem putEntry_stops (opened : v.fdOpen = true) (stops : ¬ v.Carries 2) :
    ∃ w, putEntry b i e v = some (.io, w) ∧ OnlyHost v w := by
  obtain ⟨w, run, only⟩ := readBlock_stops (b := b) opened stops
  refine ⟨w, ?_, only⟩
  rw [putEntry, Prog.bind_of_run run]
  rfl

theorem carries_mono {first second : Nat} (less : first ≤ second) (carried : s.Carries second) :
    s.Carries first := by
  intro outcome member
  exact carried outcome (List.take_subset_take_left _ less member)

variable (opened : v.fdOpen = true) (stored : v.blockOffset b + v.gBlockSize ≤ v.fileSize)

include opened stored

theorem putEntry_read (read : v.Carries 2) : putEntry b i e v =
    (do if ← writeBlock (setDirentAt (v.block b) i e) b then return PennFatErr.ok else return .io :
    FsM PennFatErr)
      (v.skip 2) := by
  have run := (@readBlock_some_iff _ _ _ (v.block b) opened).mpr ⟨read, stored, rfl, rfl⟩
  rw [putEntry, Prog.bind_of_run run]

theorem putEntry_tears (read : v.Carries 2) (stops : ¬ v.Carries 5) :
    ∃ w, putEntry b i e v = some (.io, w) ∧
      Overwrites v b (v.skip 2).written (setDirentAt (v.block b) i e) w := by
  have stops' : ¬ (v.skip 2).Carries 3 := fun rest => stops ((carries_add).mpr ⟨read, rest⟩)
  obtain ⟨w, run, torn⟩ := @writeBlock_fails (v.skip 2) b (setDirentAt (v.block b) i e)
    opened stops'
  refine ⟨w, ?_, torn.of_host (skip_onlyHost v 2)⟩
  rw [putEntry_read opened stored read, Prog.bind_of_run run]
  rfl

theorem putEntry_carried (carried : v.Carries 5) :
    ∃ w, putEntry b i e v = some (.ok, w) ∧ w.host = v.host.drop 5 ∧
      Overwrites v b v.gBlockSize (setDirentAt (v.block b) i e) w := by
  obtain ⟨read, rest⟩ := (carries_add).mp (show v.Carries (2 + 3) from carried)
  obtain ⟨w, run, same, torn⟩ := @writeBlock_carried (v.skip 2) b (setDirentAt (v.block b) i e) opened rest
  refine ⟨w, ?_, ?_, torn.of_host (skip_onlyHost v 2)⟩
  · rw [putEntry_read opened stored read, Prog.bind_of_run run]
    rfl
  · rw [same]
    exact List.drop_drop

end Putting

section Growing

theorem lastInChain_ends {fuel cur last : Nat} (run : lastInChain fuel cur s = some (last, t)) :
    t = s ∧ s.fatMapped last = true ∧ s.fat last = fatEoc := by
  induction fuel generalizing cur with
  | zero => cases run
  | succ fuel ih =>
      unfold lastInChain at run
      obtain ⟨next, u, got, run⟩ := Prog.bind_inv run
      unfold fatGet at got
      split at got
      swap
      · cases got
      next mapped =>
      cases got
      split at run
      · next ends =>
          cases run
          exact ⟨rfl, mapped, ends⟩
      · exact ih run

/-- The directory has no free slot. The block `b` is there for a further one, and `last` is the block it
will hang on. -/
structure Extends (u : Fs) (d b last : Nat) (v : Fs) : Prop where
  searched : Searched u d none v
  free : v.firstFree = some b
  ends : lastInChain (chainFuel + 1) d (v.setFat b fatEoc) = some (last, v.setFat b fatEoc)

theorem Extends.unique {b' last last' : Nat} {v' : Fs} (first : Extends u d b last v)
    (second : Extends u d b' last' v') : v = v' ∧ b = b' ∧ last = last' := by
  obtain rfl := (first.searched.unique second.searched).2
  obtain rfl := Option.some.inj (first.free.symm.trans second.free)
  have same := first.ends.symm.trans second.ends
  simp only [Option.some.injEq, Prod.mk.injEq, and_true] at same
  exact ⟨rfl, rfl, same⟩

theorem allocateFreeBlock_calm (mounted : v.calm.Mounted k) : allocateFreeBlock v =
    match v.firstFree with
    | none => some (none, v)
    | some b => some (some b, v.setFat b fatEoc) := by
  have reserved : v.gSuperblock.dataStartBlock = 2 := by
    have super : v.gSuperblock = ⟨k, 2⟩ := mounted.superblock
    rw [super]
  have total : totalEntries v = k * v.gBlockSize / 2 := totalEntries_mounted (s := v.calm) mounted
  have room : 256 ≤ k * v.gBlockSize :=
    le_trans mounted.blockSize_bounds.1 (Nat.le_mul_of_pos_left _ mounted.count.1)
  exact allocateScan_run fun b _ high => fatMapped_inside mounted (by omega)

theorem firstFree_taken (mounted : v.calm.Mounted k) (free : v.firstFree = some b) :
    2 ≤ b ∧ b < totalEntries v ∧ v.fat b = fatFree := by
  obtain ⟨low, high, unused⟩ := firstFree_some (s := v.calm) mounted free
  have total : totalEntries v = k * v.gBlockSize / 2 := totalEntries_mounted (s := v.calm) mounted
  exact ⟨low, total ▸ high, unused⟩

/-- The FAT once the new block is linked. -/
theorem fat_linked (v : Fs) (b last : Nat) (small : b < 65536) (i : Nat) :
    ((v.setFat b fatEoc).setFat last b).fat i =
      if i = last then b else if i = b then fatEoc else v.fat i := by
  rw [fat_setFat _ small, fat_setFat _ (by decide)]

theorem linked_framed (v : Fs) (b last : Nat) : Framed v ((v.setFat b fatEoc).setFat last b) := ⟨rfl⟩

/-- Where `add_dirent_to_dir` grows a directory. -/
structure Growable (k : Nat) (v : Fs) (d b last : Nat) : Prop where
  mounted : v.calm.Mounted k
  behind : k ≤ b
  free : v.firstFree = some b
  ends : lastInChain (chainFuel + 1) d (v.setFat b fatEoc) = some (last, v.setFat b fatEoc)

variable {last : Nat} (grows : Growable k v d b last)

include grows

theorem Growable.bounds : 2 ≤ b ∧ b < totalEntries v ∧ b < 65536 ∧ last < totalEntries v := by
  obtain ⟨low, high, _⟩ := firstFree_taken grows.mounted grows.free
  obtain ⟨_, mapped, _⟩ := lastInChain_ends grows.ends
  obtain ⟨mapping, pointer, _, bytes⟩ := grows.mounted.mapping
  have pointer' : v.gFat = some mapping := pointer
  have bytes' : mapping.bytes = k * v.gBlockSize := bytes
  have covered : (v.setFat b fatEoc).fatMapped last = v.fatMapped last := rfl
  rw [covered] at mapped
  simp only [Fs.fatMapped, pointer', Bool.and_eq_true, decide_eq_true_eq] at mapped
  have total : totalEntries v = k * v.gBlockSize / 2 := totalEntries_mounted (s := v.calm) grows.mounted
  have few := totalEntries_le grows.mounted
  exact ⟨low, high, by omega, by omega⟩

theorem Growable.linked : growDir d v = (do
    if ← writeBlock zeroBuffer b then return .ok b
    else
      fatSet last fatEoc
      fatSet b fatFree
      return .error .io : FsM (Except PennFatErr Nat)) ((v.setFat b fatEoc).setFat last b) := by
  obtain ⟨_, mapped, _⟩ := lastInChain_ends grows.ends
  have taken := allocateFreeBlock_calm grows.mounted
  rw [grows.free] at taken
  rw [growDir, Prog.bind_of_run taken]
  dsimp only
  rw [Prog.bind_of_run grows.ends, Prog.bind_of_run (fatSet_mapped b mapped)]

theorem Growable.mark (low : k ≤ p.1) (bound : p.1 < 65536) :
    ((v.setFat b fatEoc).setFat last b).mark p = v.mark p := by
  obtain ⟨_, high, _, below⟩ := grows.bounds
  have mounted := (setFat_framed v b fatEoc).mounted grows.mounted
  rw [mark_setFat mounted b below low bound, mark_setFat grows.mounted fatEoc high low bound]

theorem Growable.written (fits : count ≤ v.gBlockSize)
    (torn : Overwrites ((v.setFat b fatEoc).setFat last b) b count buf w) : Grown k v b last w := by
  obtain ⟨low, high, few, _⟩ := grows.bounds
  have bounds : b < 65536 ∧ k ≤ b := ⟨few, grows.behind⟩
  have mounted := (linked_framed v b last).mounted grows.mounted
  refine ⟨Trans.trans (linked_framed v b last) torn.toFramed, ?_, ?_⟩
  · intro i inside
    rw [torn.fat mounted bounds.2 bounds.1 inside, fat_linked v b last bounds.1]
  · intro q low' bound inside apart
    rw [torn.mark mounted bounds.1 fits bound inside, if_neg fun both => apart both.1,
      grows.mark low' bound]

/-- Where the new block cannot be cleared, it is taken off again. -/
theorem Growable.stops (stops : ¬ v.Carries 3) : ∃ w, growDir d v = some (.error .io, w) ∧ Quiet k v w := by
  obtain ⟨low, high, few, below⟩ := grows.bounds
  obtain ⟨_, _, ended⟩ := lastInChain_ends grows.ends
  have free := (firstFree_taken grows.mounted grows.free).2.2
  have bounds : b < 65536 ∧ k ≤ b := ⟨few, grows.behind⟩
  have opened : v.fdOpen = true := grows.mounted.descriptor
  have fits := written_le ((v.setFat b fatEoc).setFat last b)
  obtain ⟨x, run, torn⟩ := @writeBlock_fails ((v.setFat b fatEoc).setFat last b) b zeroBuffer opened stops
  have grown := grows.written fits torn
  have mounted := grown.mounted grows.mounted
  have mounted' := (setFat_framed x last fatEoc).mounted mounted
  have entries := grown.totalEntries
  have mapped : ∀ i < totalEntries v, x.fatMapped i = true :=
    fun i inside => fatMapped_inside mounted (entries ▸ inside)
  refine ⟨(x.setFat last fatEoc).setFat b fatFree, ?_, ?_⟩
  · rw [grows.linked, Prog.bind_of_run run]
    rw [if_neg (by decide), Prog.bind_of_run (fatSet_mapped _ (mapped last below)),
      Prog.bind_of_run (fatSet_mapped (s := x.setFat last fatEoc) _ (mapped b high))]
    rfl
  · refine ⟨Trans.trans grown.toFramed (⟨rfl⟩ : Framed x _), ?_, ?_⟩
    · intro i inside
      rw [fat_setFat _ (by decide), fat_setFat _ (by decide), grown.fat i inside]
      rw [fat_setFat _ (by decide)] at ended
      by_cases new : i = b
      · rw [if_pos new, new, free]
      · rw [if_neg new]
        by_cases tail : i = last
        · rw [if_pos tail, tail]
          rw [if_neg (tail ▸ new)] at ended
          exact ended.symm
        · rw [if_neg tail, if_neg tail, if_neg new]
    · intro q low' bound inside
      rw [mark_setFat mounted' fatFree (show b < totalEntries x by rw [entries]; exact high) low' bound,
        mark_setFat mounted fatEoc (by rw [entries]; exact below) low' bound,
        torn.mark ((linked_framed v b last).mounted grows.mounted) bounds.1 fits bound inside,
          grows.mark low' bound]
      split
      · exact .inr rfl
      · exact .inl rfl

/-- What becomes of the entry for which the directory grows. -/
theorem Growable.enters (carried : v.Carries 3) : ∃ x, growDir d v = some (.ok b, x) ∧
    ∃ err w, putEntry b 0 e x = some (err, w) ∧ Grown k v b last w ∧
      (v.Carries 8 ∧ err = .ok ∧ w.host = v.host.drop 8 ∨ ¬ v.Carries 8 ∧ err = .io) := by
  obtain ⟨low, high, few, below⟩ := grows.bounds
  have bounds : b < 65536 ∧ k ≤ b := ⟨few, grows.behind⟩
  have opened : v.fdOpen = true := grows.mounted.descriptor
  obtain ⟨x, run, same, torn⟩ :=
    @writeBlock_carried ((v.setFat b fatEoc).setFat last b) b zeroBuffer opened carried
  have grown := grows.written (Nat.le_refl _) torn
  have host : x.host = v.host.drop 3 := by
    rw [same]
    rfl
  have opened' : x.fdOpen = true := (grown.mounted grows.mounted).descriptor
  have stored : x.blockOffset b + x.gBlockSize ≤ x.fileSize := by
    rw [same]
    exact Nat.le_max_right _ _
  have further : ∀ k, x.Carries k ↔ (v.skip 3).Carries k := by
    intro k
    rw [Fs.Carries, Fs.Carries, host]
    rfl
  have enough : v.Carries 8 ↔ x.Carries 5 := by
    rw [further]
    exact ⟨fun all => ((carries_add).mp (show v.Carries (3 + 5) from all)).2,
      fun rest => (carries_add).mpr ⟨carried, rest⟩⟩
  have later : ∀ {bytes y}, bytes ≤ x.gBlockSize → Overwrites x b bytes (setDirentAt (x.block b) 0 e) y →
      Grown k v b last y := by
    intro bytes y fits put
    have mounted := grown.mounted grows.mounted
    refine ⟨Trans.trans grown.toFramed put.toFramed, ?_, ?_⟩
    · intro i inside
      rw [put.fat mounted bounds.2 bounds.1 (grown.totalEntries ▸ inside), grown.fat i inside]
    · intro q low' bound inside apart
      rw [put.mark mounted bounds.1 fits bound (grown.entriesPerBlock ▸ inside),
        if_neg fun both => apart both.1, grown.mark q low' bound inside apart]
  refine ⟨x, ?_, ?_⟩
  · rw [grows.linked, Prog.bind_of_run run]
    rfl
  · by_cases read : x.Carries 2
    · by_cases whole : x.Carries 5
      · obtain ⟨w, run', host', put⟩ := putEntry_carried (i := 0) (e := e) opened' stored whole
        refine ⟨_, w, run', later (Nat.le_refl _) put, .inl ⟨enough.mpr whole, rfl, ?_⟩⟩
        rw [host', host]
        exact List.drop_drop
      · obtain ⟨w, run', put⟩ := putEntry_tears (i := 0) (e := e) opened' stored read whole
        exact ⟨_, w, run', later (written_le (x.skip 2)) put, .inr ⟨fun all => whole (enough.mp all), rfl⟩⟩
    · obtain ⟨w, run', only⟩ := putEntry_stops (b := b) (i := 0) (e := e) opened' read
      refine ⟨_, w, run', ⟨Trans.trans grown.toFramed only.framed, ?_, ?_⟩, .inr ⟨?_, rfl⟩⟩
      · intro i inside
        rw [only.fat, grown.fat i inside]
      · intro q low' bound inside apart
        rw [only.mark, grown.mark q low' bound inside apart]
      · exact fun all => read (carries_mono (by decide) (enough.mp all))

end Growing

section Adding

theorem Quiet.of_host (only : OnlyHost u v) (quiet : Quiet k v w) : Quiet k u w where
  toFramed := Trans.trans only.framed quiet.toFramed
  fat i inside := by rw [quiet.fat i (only.framed.totalEntries ▸ inside), only.fat]
  mark q low bound inside := by
    rw [← only.mark q]
    exact quiet.mark q low bound (only.framed.entriesPerBlock ▸ inside)

theorem Grown.of_host {last : Nat} (only : OnlyHost u v) (grown : Grown k v b last w) :
    Grown k u b last w where
  toFramed := Trans.trans only.framed grown.toFramed
  fat i inside := by rw [grown.fat i (only.framed.totalEntries ▸ inside), only.fat]
  mark q low bound inside apart := by
    rw [grown.mark q low bound (only.framed.entriesPerBlock ▸ inside) apart, only.mark]

/-- How `add_dirent_to_dir` ends. -/
inductive AddEnds (k : Nat) (u : Fs) (d : Nat) (e : DirEntry) : PennFatErr → Fs → Prop where
  | refused {err : PennFatErr} {w : Fs} : err ≠ .ok → Quiet k u w →
      (∀ p v, Searched u d (some p) v → ¬ v.Carries 5 ∧ (v.Carries 2 → (v.skip 2).written ≤ 64 * p.2)) →
      (∀ b last v, Extends u d b last v → ¬ v.Carries 3) → AddEnds k u d e err w
  | torn {p : Nat × Nat} {v w : Fs} : Searched u d (some p) v → v.Carries 2 → ¬ v.Carries 5 →
      64 * p.2 < (v.skip 2).written → Marked k u p e.name0 w → AddEnds k u d e .io w
  | entered {p : Nat × Nat} {v w : Fs} : Searched u d (some p) v → v.Carries 5 → w.host = v.host.drop 5 →
      Marked k u p e.name0 w → AddEnds k u d e .ok w
  | cut {b last : Nat} {v w : Fs} : Extends u d b last v → v.Carries 3 → ¬ v.Carries 8 → Grown k u b last w →
      AddEnds k u d e .io w
  | grown {b last : Nat} {v w : Fs} : Extends u d b last v → v.Carries 8 → w.host = v.host.drop 8 →
      Grown k u b last w → AddEnds k u d e .ok w

theorem growDir_nospace (mounted : v.calm.Mounted k) (full : v.firstFree = none) :
    growDir d v = some (.error .nospace, v) := by
  have taken := allocateFreeBlock_calm mounted
  rw [full] at taken
  rw [growDir, Prog.bind_of_run taken]
  rfl

variable (mounted : u.calm.Mounted k) (proper : ¬ (d = fatFree ∨ d = fatEoc)) (small : d < 65536)

include proper

theorem addDirentToDir_searched {spot : Option (Nat × Nat)} (searched : Searched u d spot v) :
    addDirentToDir d e u = match spot with
      | some (slotBlock, slotIndex) => putEntry slotBlock slotIndex e v
      | none => (growDir d >>= fun grown => match grown with
          | .error err => pure err
          | .ok newBlock => putEntry newBlock 0 e) v := by
  have room : malloc u = some (true, u.skip 1) := (hostOk_true_iff).mpr ⟨searched.room, rfl⟩
  rw [addDirentToDir, if_neg proper, Prog.bind_of_run room, if_neg (by decide),
    Prog.bind_of_run searched.search]
  rcases spot with _ | ⟨slotBlock, slotIndex⟩
  · rfl
  · rfl

include mounted small

/-- Where the search comes to a free slot. -/
theorem addDirentToDir_spot (behind : k ≤ p.1) (searched : Searched u d (some p) v) :
    ∃ err w, addDirentToDir d e u = some (err, w) ∧ AddEnds k u d e err w := by
  have only := searched.only
  have opened : u.fdOpen = true := mounted.descriptor
  have opened' : v.fdOpen = true := only.fdOpen.trans opened
  have spot := searched.spot opened small
  have stored : v.blockOffset p.1 + v.gBlockSize ≤ v.fileSize := by
    rw [only.same]
    exact spot.stored
  have size := only.framed.gBlockSize
  have same : v.block p.1 = u.block p.1 := by
    rw [only.same]
    rfl
  have noGrowth : ∀ b last v', Extends u d b last v' → ¬ v'.Carries 3 := by
    intro b last v' extends_
    cases (searched.unique extends_.searched).1
  rw [addDirentToDir_searched proper searched]
  by_cases read : v.Carries 2
  · by_cases whole : v.Carries 5
    · obtain ⟨w, run, host, torn⟩ := putEntry_carried (i := p.2) (e := e) opened' stored whole
      have reached : 64 * p.2 < v.gBlockSize := by
        have room : 64 * p.2 + 64 ≤ u.gBlockSize := mounted.slot_inside spot.inside
        omega
      have torn' := torn.of_host only
      rw [same] at torn'
      exact ⟨_, w, run, .entered searched whole host (torn'.marked mounted behind spot size.le reached)⟩
    · obtain ⟨w, run, torn⟩ := putEntry_tears (i := p.2) (e := e) opened' stored read whole
      have fits : (v.skip 2).written ≤ u.gBlockSize := size ▸ written_le (v.skip 2)
      have torn' := torn.of_host only
      rw [same] at torn'
      by_cases reached : 64 * p.2 < (v.skip 2).written
      · exact ⟨_, w, run, .torn searched read whole reached (torn'.marked mounted behind spot fits reached)⟩
      · refine ⟨_, w, run, .refused (by decide) (torn'.quiet mounted behind spot fits (by omega)) ?_ noGrowth⟩
        intro p' v' searched'
        obtain ⟨equal, rfl⟩ := searched.unique searched'
        obtain rfl := Option.some.inj equal
        exact ⟨whole, fun _ => by omega⟩
  · obtain ⟨w, run, only'⟩ := putEntry_stops (b := p.1) (i := p.2) (e := e) opened' read
    refine ⟨_, w, run, .refused (by decide) (Trans.trans only only').quiet ?_ noGrowth⟩
    intro p' v' searched'
    obtain ⟨_, rfl⟩ := searched.unique searched'
    exact ⟨fun whole => read (carries_mono (by decide) whole), fun read' => absurd read' read⟩

omit small in
/-- Where the directory grows. -/
theorem addDirentToDir_extends {last : Nat} (behind : k ≤ b) (extends_ : Extends u d b last v) :
    ∃ err w, addDirentToDir d e u = some (err, w) ∧ AddEnds k u d e err w := by
  have only := extends_.searched.only
  have grows : Growable k v d b last := ⟨only.framed.mounted mounted, behind, extends_.free, extends_.ends⟩
  have noSlot : ∀ p v', ¬ Searched u d (some p) v' := by
    intro p v' searched
    cases (searched.unique extends_.searched).1
  rw [addDirentToDir_searched proper extends_.searched]
  by_cases cleared : v.Carries 3
  · obtain ⟨x, run, err, w, run', grown, ends⟩ := grows.enters (e := e) cleared
    dsimp only
    rw [Prog.bind_of_run run]
    rcases ends with ⟨whole, rfl, host⟩ | ⟨part, rfl⟩
    · exact ⟨_, w, run', .grown extends_ whole host (grown.of_host only)⟩
    · exact ⟨_, w, run', .cut extends_ cleared part (grown.of_host only)⟩
  · obtain ⟨w, run, quiet⟩ := grows.stops cleared
    dsimp only
    rw [Prog.bind_of_run run]
    refine ⟨_, w, rfl, .refused (by decide) (quiet.of_host only) ?_ ?_⟩
    · exact fun p v' searched => absurd searched (noSlot p v')
    · intro b' last' v' extends'
      obtain ⟨rfl, _⟩ := extends_.unique extends'
      exact cleared

theorem addDirentToDir_ends (behind : ∀ p v, Searched u d (some p) v → k ≤ p.1)
    (behind' : ∀ b last v, Extends u d b last v → k ≤ b)
    (run : addDirentToDir d e u = some (err, w)) : AddEnds k u d e err w := by
  have refused : ∀ {err w}, err ≠ .ok → Quiet k u w → (∀ spot v, ¬ Searched u d spot v) →
    AddEnds k u d e err w :=
    fun bad quiet nothing => .refused bad quiet (fun p v searched => absurd searched (nothing _ _))
      fun _ _ _ extends_ => absurd extends_.searched (nothing _ _)
  have whole := run
  rw [addDirentToDir, if_neg proper] at run
  obtain ⟨room, u', first, run⟩ := Prog.bind_inv run
  cases room with
  | false =>
      cases run
      refine refused (by decide) (hostOk_host u false w first).quiet fun spot v searched => ?_
      have room := (hostOk_true_iff).mpr ⟨searched.room, rfl⟩
      cases first.symm.trans room
  | true =>
  rw [if_neg (by decide)] at run
  obtain ⟨carried, rfl⟩ := (hostOk_true_iff).mp first
  obtain ⟨found, v, search, run⟩ := Prog.bind_inv run
  have only : OnlyHost u v := Trans.trans (skip_onlyHost u 1) (findSlotLoop_host _ _ _ _ _ search)
  rcases found with other | _ | spot
  · cases run
    refine refused (findSlotLoop_named _ _ _ _ _ search) only.quiet fun spot v searched => ?_
    cases search.symm.trans searched.search
  · have searched : Searched u d none v := ⟨carried, search⟩
    have mounted' := only.framed.mounted mounted
    cases free : v.firstFree with
    | none =>
        dsimp only at run
        rw [Prog.bind_of_run (growDir_nospace mounted' free)] at run
        cases run
        refine .refused (by decide) only.quiet ?_ ?_
        · intro p v' searched'
          cases (searched.unique searched').1
        · intro b last v' extends_
          obtain ⟨_, rfl⟩ := searched.unique extends_.searched
          cases free.symm.trans extends_.free
    | some b =>
        have taken := allocateFreeBlock_calm mounted'
        rw [free] at taken
        obtain ⟨grown, x, growing, _⟩ := Prog.bind_inv run
        rw [growDir, Prog.bind_of_run taken] at growing
        obtain ⟨last, y, ends, _⟩ := Prog.bind_inv growing
        obtain ⟨rfl, _⟩ := lastInChain_ends ends
        obtain ⟨err', w', run', result⟩ :=
          addDirentToDir_extends (e := e) mounted proper (behind' b last _ ⟨searched, free, ends⟩)
            ⟨searched, free, ends⟩
        cases whole.symm.trans run'
        exact result
  · obtain ⟨err', w', run', result⟩ := addDirentToDir_spot (e := e) mounted proper small
      (behind spot v ⟨carried, search⟩) ⟨carried, search⟩
    cases whole.symm.trans run'
    exact result

end Adding

section Parents

variable {follow : Bool} {recurse : List UInt8 → FsM (PennFatErr × ResolvedPath)}

/-- A directory that is named as the parent has a 16-bit number. -/
def SmallParent (res : PennFatErr × ResolvedPath) : Prop :=
  res.2.found = false → res.2.parentDirBlock < 65536

/-- Programs that only ask the host leave the current directory as it is. -/
theorem cwd_kept {α : Type} {prog : FsM α} (host : Prog.Keeps OnlyHost prog) :
    Prog.Hoare (fun s => s.gCwdBlock < 65536) prog fun _ s => s.gCwdBlock < 65536 := by
  intro s a t small run
  rw [(host s a t run).same]
  exact small

theorem zero_parent (err : PennFatErr) : SmallParent (err, .zero) := fun _ => by
  show 0 < 65536
  decide

theorem walk_parent (targets : ∀ target, Prog.Hoare (fun s => s.gCwdBlock < 65536) (recurse target)
      fun res _ => SmallParent res) (parts : List (List UInt8)) {cur parent : Nat} (small : cur < 65536) :
    Prog.Hoare (fun s => s.gCwdBlock < 65536) (walk now follow recurse parts cur parent)
      fun res _ => SmallParent res := by
  induction parts generalizing cur parent with
  | nil => exact .pure fun _ _ => (by rintro ⟨⟩)
  | cons part rest ih =>
      unfold walk
      refine .ite (fun _ => ih small) fun _ =>
        .ite (fun _ => .ite (fun _ => ih small) fun _ => ?_) fun _ => ?_
      · refine (cwd_kept (findEntryInDir_host cur dotDot)).bind fun found => ?_
        cases found with
        | error err => exact .pure fun _ _ => zero_parent err
        | ok up =>
            exact .ite (fun _ => .pure fun _ _ => zero_parent _) fun _ => ih up.entry.firstBlock.toNat_lt
      · refine (cwd_kept (findEntryInDir_host cur part)).bind fun found => ?_
        cases found with
        | error err => exact .pure fun _ _ => zero_parent err
        | ok hit =>
            refine .ite (fun _ => .pure fun _ _ _ => small) fun present => ?_
            have present' : hit.found = true := by simpa using present
            cases rest with
            | nil =>
                refine .ite (fun _ => ?_) fun _ =>
                  .pure fun _ _ missing => absurd (present'.symm.trans missing) (by rintro ⟨⟩)
                refine (cwd_kept (readSymlinkTarget_host hit.entry)).bind fun target => ?_
                cases target with
                | error err => exact .pure fun _ _ => zero_parent err
                | ok target => exact targets target
            | cons next rest =>
                exact .ite (fun _ => .pure fun _ _ _ => small) fun _ => ih hit.entry.firstBlock.toNat_lt

theorem resolvePathInternal_parent (levels : Nat) (path : List UInt8) :
    Prog.Hoare (fun s => s.gCwdBlock < 65536) (resolvePathInternal now follow levels path)
      fun res _ => SmallParent res := by
  induction levels generalizing path with
  | zero => exact .pure fun _ _ => zero_parent _
  | succ levels ih =>
      unfold resolvePathInternal
      refine .get fun s => ?_
      cases path with
      | nil => exact .ite (fun _ => .pure fun _ _ => (by rintro ⟨⟩)) fun _ => .pure fun _ _ => (by rintro ⟨⟩)
      | cons c rest =>
          refine .ite (fun _ => .ite (fun _ => .pure fun _ _ => (by rintro ⟨⟩)) fun _ => ?_) fun _ => ?_
          · exact (walk_parent ih _ (by decide)).mono (fun _ start => start.2) fun _ _ post => post
          · rintro t res u ⟨rfl, small⟩ run
            exact walk_parent ih _ small t res u small run

theorem resolvePath_parent (path : List UInt8) :
    Prog.Hoare (fun s => s.gCwdBlock < 65536) (resolvePath now path) fun res _ => SmallParent res := by
  unfold resolvePath
  exact .ite (fun _ => .pure fun _ _ => nofun) fun _ => resolvePathInternal_parent symlinkLevels path

end Parents

end PennOs.Fat

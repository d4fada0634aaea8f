import PennOs.User.Jobs

set_option autoImplicit false

/- The job table over any sequence of calls and handler runs. -/
namespace PennOs.User

open PennOs.Kernel (Pcb)

/-- A status that `k_waitpid` stores for a process it has reaped. -/
structure ReapStatus where
  status : Int
  stored : ∃ pcb, exitStatus pcb = some status

/-- A call of the job table's interface, or a run of its handler with the slots whose processes
are reaped in it. -/
inductive JobOp where
  | add (pid : Int) (cmdline : List UInt8) (bg : Bool)
  | update (pid : Int) (state : JobState)
  | remove (pid : Int)
  | sigchld (exits : Fin maxJobs → Option ReapStatus)

/-- What `s_waitpid` answers in a run of the handler. -/
def reapAnswers (t : JobTable) (exits : Fin maxJobs → Option ReapStatus) (i : Fin maxJobs) : Int × Int :=
  match exits i with
  | none => (0, 0)
  | some exit => ((t.table i).pid, exit.status)

/-- The table with the history of its jobs: when each was added, whether as foreground, and whether
it has finished since. -/
structure History where
  jobs : JobTable
  count : Nat
  serial : Fin maxJobs → Nat
  foreground : Fin maxJobs → Bool
  finished : Fin maxJobs → Bool

namespace History

/-- After `jobs_init`. -/
def start : History := ⟨JobTable.static.jobsInit, 0, fun _ => 0, fun _ => false, fun _ => false⟩

/-- The job in the slot was reaped by a run of the handler. -/
def reaped (t : JobTable) (exits : Fin maxJobs → Option ReapStatus) (i : Fin maxJobs) : Bool :=
  decide ((t.table i).jid ≠ 0 ∧ 0 < (reapAnswers t exits i).1)

def step (h : History) : JobOp → History
  | .add pid cmdline bg =>
      match h.jobs.findEmptySlot with
      | none => { h with jobs := h.jobs.jobsAdd pid cmdline bg }
      | some idx =>
          { jobs := h.jobs.jobsAdd pid cmdline bg
            count := h.count + 1
            serial := Function.update h.serial idx h.count
            foreground := Function.update h.foreground idx (!bg)
            finished := Function.update h.finished idx false }
  | .update pid state =>
      { h with
        jobs := h.jobs.jobsUpdate pid state
        finished := fun i =>
          h.finished i || decide (state = .done ∧ h.jobs.indexByPid pid = some i) }
  | .remove pid => { h with jobs := h.jobs.jobsRemove pid }
  | .sigchld exits =>
      { h with
        jobs := h.jobs.chldHandler (reapAnswers h.jobs exits)
        finished := fun i => h.finished i || reaped h.jobs exits i }

def run (h : History) (ops : List JobOp) : History := ops.foldl step h

/-- The slot holds a job. -/
def Live (h : History) (i : Fin maxJobs) : Prop := (h.jobs.table i).jid ≠ 0

/-- A job added as foreground that has been neither removed nor finished. -/
def Pending (h : History) (i : Fin maxJobs) : Prop :=
  h.Live i ∧ h.foreground i = true ∧ h.finished i = false

/-- Job ids are positive and distinct, and the current foreground job is the one added last. -/
structure Consistent (h : History) : Prop where
  positive : ∀ i, h.Live i → 0 < (h.jobs.table i).jid
  distinct : ∀ i j, h.Live i → h.Live j → (h.jobs.table i).jid = (h.jobs.table j).jid → i = j
  current : ∀ i, h.jobs.jobsCurrentFg = some i →
    h.Pending i ∧ ∀ j, j ≠ i → h.Pending j → h.serial j < h.serial i

/-- The call does not take the foreground slot away under `fg_index`, and `next_jid` has not wrapped. -/
def Careful (h : History) : JobOp → Prop
  | .add _ _ _ => h.jobs.findEmptySlot = none ∨ 0 < h.jobs.nextJid
  | .update pid state => state = .done → ∀ i, h.jobs.indexByPid pid = some i → h.jobs.fgIndex ≠ some i
  | .remove pid => ∀ i, h.jobs.indexByPid pid = some i → h.jobs.fgIndex ≠ some i
  | .sigchld _ => True

/-- The consistent states of a run, with what the next call needs. -/
structure Sound (h : History) : Prop extends Consistent h where
  ids : ∀ i, h.Live i → h.jobs.nextJid = -2 ^ 31 ∨ (h.jobs.table i).jid < h.jobs.nextJid
  range : h.jobs.nextJid = -2 ^ 31 ∨ 0 < h.jobs.nextJid ∧ h.jobs.nextJid < 2 ^ 31
  serials : ∀ i, h.Live i → h.serial i < h.count

variable {h : History} {op : JobOp} {ops : List JobOp} {i j : Fin maxJobs} {pid : Int} {state : JobState}
  {cmdline : List UInt8} {bg : Bool}

theorem start_sound : start.Sound where
  positive i live := absurd rfl live
  distinct i j live := absurd rfl live
  current i current := by cases current
  ids i live := absurd rfl live
  range := .inr (by decide)
  serials i live := absurd rfl live

theorem free_of_findEmptySlot {t : JobTable} (found : t.findEmptySlot = some i) : (t.table i).jid = 0 := by
  rw [JobTable.findEmptySlot] at found
  simpa using List.find?_some found

section Additions

/-- A job was added in slot `idx`. -/
structure Added (h : History) (idx : Fin maxJobs) (bg : Bool) (h' : History) : Prop where
  jid : (h'.jobs.table idx).jid = h.jobs.nextJid
  nextJid : h'.jobs.nextJid = toInt (h.jobs.nextJid + 1)
  fgIndex : h'.jobs.fgIndex = if bg then h.jobs.fgIndex else some idx
  count : h'.count = h.count + 1
  serial : h'.serial idx = h.count
  foreground : h'.foreground idx = !bg
  table : ∀ j, j ≠ idx → h'.jobs.table j = h.jobs.table j
  old : ∀ j, j ≠ idx → h'.serial j = h.serial j ∧ h'.foreground j = h.foreground j ∧
    h'.finished j = h.finished j
  unfinished : h'.finished idx = false

theorem step_added {idx : Fin maxJobs} (free : h.jobs.findEmptySlot = some idx) :
    Added h idx bg (h.step (.add pid cmdline bg)) := by
  have after : h.step (.add pid cmdline bg) =
      ⟨⟨Function.update h.jobs.table idx ⟨h.jobs.nextJid, pid, cmdline.take 127, .running⟩,
        toInt (h.jobs.nextJid + 1), if bg then h.jobs.fgIndex else some idx⟩, h.count + 1,
        Function.update h.serial idx h.count, Function.update h.foreground idx (!bg),
        Function.update h.finished idx false⟩ := by
    simp only [step, free, JobTable.jobsAdd, JobTable.setSlot]
  rw [after]
  refine ⟨?_, rfl, rfl, rfl, Function.update_self _ _ _, Function.update_self _ _ _, fun j apart => ?_,
    fun j apart => ?_, Function.update_self _ _ _⟩
  · dsimp only
    rw [Function.update_self]
  · exact Function.update_of_ne apart _ _
  · exact ⟨Function.update_of_ne apart _ _, Function.update_of_ne apart _ _, Function.update_of_ne apart _ _⟩

variable {h' : History} {idx : Fin maxJobs}

theorem Added.live_iff (added : Added h idx bg h') (apart : j ≠ idx) : h'.Live j ↔ h.Live j := by
  rw [Live, Live, added.table j apart]

theorem Added.pending_iff (added : Added h idx bg h') (apart : j ≠ idx) : h'.Pending j ↔ h.Pending j := by
  obtain ⟨_, foreground, finished⟩ := added.old j apart
  rw [Pending, Pending, added.live_iff apart, foreground, finished]

/-- Ids after the next one. -/
theorem toInt_next {n : Int} (range : 0 < n ∧ n < 2 ^ 31) :
    toInt (n + 1) = -2 ^ 31 ∨ toInt (n + 1) = n + 1 ∧ n + 1 < 2 ^ 31 := by
  rw [toInt, Int.bmod_def]
  omega

/-- The new job is the youngest, and has the largest id. -/
theorem Sound.added (sound : h.Sound) (added : Added h idx bg h') (free : (h.jobs.table idx).jid = 0)
    (more : 0 < h.jobs.nextJid) : h'.Sound := by
  have below := sound.range.resolve_left (by omega)
  have next := toInt_next below
  rw [← added.nextJid] at next
  have less : ∀ j, h.Live j → (h.jobs.table j).jid < h.jobs.nextJid := fun j live =>
    (sound.ids j live).resolve_left (by omega)
  have apart : ∀ j, h.Live j → j ≠ idx := fun j live same => live (same ▸ free)
  have isNew : h'.Live idx := by
    rw [Live, added.jid]
    omega
  refine ⟨⟨?_, ?_, ?_⟩, ?_, ?_, ?_⟩
  · intro j live
    by_cases here : j = idx
    · rw [here, added.jid]
      exact more
    · rw [added.table j here]
      exact sound.positive j ((added.live_iff here).mp live)
  · intro i j liveI liveJ same
    by_cases hereI : i = idx <;> by_cases hereJ : j = idx
    · rw [hereI, hereJ]
    · rw [hereI, added.jid, added.table j hereJ] at same
      have := less j ((added.live_iff hereJ).mp liveJ)
      omega
    · rw [hereJ, added.jid, added.table i hereI] at same
      have := less i ((added.live_iff hereI).mp liveI)
      omega
    · rw [added.table i hereI, added.table j hereJ] at same
      exact sound.distinct i j ((added.live_iff hereI).mp liveI) ((added.live_iff hereJ).mp liveJ) same
  · intro i current
    rw [JobTable.jobsCurrentFg, added.fgIndex] at current
    cases bg with
    | true =>
        obtain ⟨pending, latest⟩ := sound.current i current
        have old := apart i pending.1
        refine ⟨(added.pending_iff old).mpr pending, fun j other pending' => ?_⟩
        have notNew : j ≠ idx := by
          intro here
          have foreground := pending'.2.1
          rw [here, added.foreground] at foreground
          cases foreground
        rw [(added.old i old).1, (added.old j notNew).1]
        exact latest j other ((added.pending_iff notNew).mp pending')
    | false =>
        obtain rfl : idx = i := Option.some.inj current
        refine ⟨⟨isNew, added.foreground, added.unfinished⟩, fun j other pending' => ?_⟩
        rw [(added.old j other).1, added.serial]
        exact sound.serials j ((added.live_iff other).mp pending'.1)
  · intro j live
    by_cases here : j = idx
    · rw [here, added.jid]
      omega
    · have := less j ((added.live_iff here).mp live)
      rw [added.table j here]
      omega
  · omega
  · intro j live
    rw [added.count]
    by_cases here : j = idx
    · rw [here, added.serial]
      exact Nat.lt_succ_self _
    · rw [(added.old j here).1]
      exact Nat.lt_succ_of_lt (sound.serials j ((added.live_iff here).mp live))

end Additions

section Endings

/-- Jobs were removed or finished, and the foreground job is still pending. -/
structure Ended (h h' : History) : Prop where
  nextJid : h'.jobs.nextJid = h.jobs.nextJid
  count : h'.count = h.count
  serial : h'.serial = h.serial
  live : ∀ j, h'.Live j → h.Live j ∧ (h'.jobs.table j).jid = (h.jobs.table j).jid
  pending : ∀ j, h'.Pending j → h.Pending j
  current : ∀ i, h'.jobs.fgIndex = some i → h.jobs.fgIndex = some i ∧ (h.Pending i → h'.Pending i)

variable {h' : History} {exits : Fin maxJobs → Option ReapStatus}

theorem Sound.ended (sound : h.Sound) (ended : Ended h h') : h'.Sound := by
  refine ⟨⟨?_, ?_, ?_⟩, ?_, ?_, ?_⟩
  · intro j live
    obtain ⟨before, jid⟩ := ended.live j live
    exact jid ▸ sound.positive j before
  · intro i j liveI liveJ same
    obtain ⟨beforeI, jidI⟩ := ended.live i liveI
    obtain ⟨beforeJ, jidJ⟩ := ended.live j liveJ
    rw [jidI, jidJ] at same
    exact sound.distinct i j beforeI beforeJ same
  · intro i current
    obtain ⟨was, still⟩ := ended.current i current
    obtain ⟨pending, latest⟩ := sound.current i was
    refine ⟨still pending, fun j other pending' => ?_⟩
    rw [ended.serial]
    exact latest j other (ended.pending j pending')
  · intro j live
    obtain ⟨before, jid⟩ := ended.live j live
    rw [ended.nextJid, jid]
    exact sound.ids j before
  · rw [ended.nextJid]
    exact sound.range
  · intro j live
    rw [ended.serial, ended.count]
    exact sound.serials j (ended.live j live).1

theorem jobsUpdate_jid (t : JobTable) (pid : Int) (state : JobState) (j : Fin maxJobs) :
    ((t.jobsUpdate pid state).table j).jid = (t.table j).jid := by
  rw [JobTable.jobsUpdate]
  cases t.indexByPid pid with
  | none => rfl
  | some i =>
      show (Function.update t.table i _ j).jid = _
      by_cases here : j = i
      · rw [here, Function.update_self]
      · rw [Function.update_of_ne here]

theorem jobsUpdate_rest (t : JobTable) (pid : Int) (state : JobState) :
    (t.jobsUpdate pid state).nextJid = t.nextJid ∧ (t.jobsUpdate pid state).fgIndex = t.fgIndex := by
  rw [JobTable.jobsUpdate]
  cases t.indexByPid pid with
  | none => exact ⟨rfl, rfl⟩
  | some i => exact ⟨rfl, rfl⟩

theorem update_ended (careful : h.Careful (.update pid state)) :
    Ended h (h.step (.update pid state)) := by
  obtain ⟨nextJid, fgIndex⟩ := jobsUpdate_rest h.jobs pid state
  refine ⟨nextJid, rfl, rfl, ?_, ?_, ?_⟩
  · intro j live
    have same := jobsUpdate_jid h.jobs pid state j
    exact ⟨fun free => live (same.trans free), same⟩
  · rintro j ⟨live, foreground, unfinished⟩
    refine ⟨fun free => live ((jobsUpdate_jid h.jobs pid state j).trans free), foreground, ?_⟩
    exact (Bool.or_eq_false_iff.mp unfinished).1
  · intro i current
    have was : h.jobs.fgIndex = some i := fgIndex.symm.trans current
    refine ⟨was, fun ⟨live, foreground, unfinished⟩ => ⟨?_, foreground, ?_⟩⟩
    · rw [Live, step, jobsUpdate_jid]
      exact live
    · apply Bool.or_eq_false_iff.mpr
      refine ⟨unfinished, decide_eq_false ?_⟩
      rintro ⟨finishes, found⟩
      exact careful finishes i found was

theorem remove_ended (careful : h.Careful (.remove pid)) : Ended h (h.step (.remove pid)) := by
  rw [step, JobTable.jobsRemove]
  cases found : h.jobs.indexByPid pid with
  | none => exact ⟨rfl, rfl, rfl, fun _ live => ⟨live, rfl⟩, fun _ => id, fun _ current => ⟨current, id⟩⟩
  | some i =>
      have stays : ∀ j, j ≠ i → Function.update h.jobs.table i .cleared j = h.jobs.table j :=
        fun j apart => Function.update_of_ne apart _ _
      have live_ : ∀ j, (Function.update h.jobs.table i .cleared j).jid ≠ 0 → j ≠ i := by
        rintro j live rfl
        rw [Function.update_self] at live
        exact live rfl
      have live : ∀ j, (Function.update h.jobs.table i .cleared j).jid ≠ 0 → (h.jobs.table j).jid ≠ 0 := by
        intro j live
        rwa [stays j (live_ j live)] at live
      refine ⟨rfl, rfl, rfl, fun j alive => ⟨live j alive, congrArg Job.jid (stays j (live_ j alive))⟩,
        fun j pending => ⟨live j pending.1, pending.2⟩, fun fg current => ⟨current, fun pending => ?_⟩⟩
      have apart : fg ≠ i := by
        rintro rfl
        exact careful fg found current
      refine ⟨?_, pending.2⟩
      show (Function.update h.jobs.table i .cleared fg).jid ≠ 0
      rw [stays fg apart]
      exact pending.1

/-- A turn of the handler clears the foreground slot when it reaps its process. -/
theorem chldTurn_rest (t : JobTable) (i : Fin maxJobs) (answer : Int × Int) :
    (t.chldTurn answer i).nextJid = t.nextJid ∧ ∀ fg, (t.chldTurn answer i).fgIndex = some fg →
      t.fgIndex = some fg ∧ (fg = i → (t.table i).jid ≠ 0 → 0 < answer.1 →
        JobTable.stateOf answer.2 = .running) := by
  rw [JobTable.chldTurn]
  by_cases free : (t.table i).jid = 0
  · rw [if_pos free]
    exact ⟨rfl, fun fg current => ⟨current, fun _ live => absurd free live⟩⟩
  by_cases nothing : answer.1 ≤ 0
  · rw [if_neg free, if_pos nothing]
    exact ⟨rfl, fun fg current => ⟨current, fun _ _ some_ => absurd nothing (Int.not_le.mpr some_)⟩⟩
  rw [if_neg free, if_neg nothing]
  dsimp only
  by_cases clears : t.fgIndex = some i ∧ JobTable.stateOf answer.2 ≠ .running
  · rw [if_pos (show (t.setSlot i _).fgIndex = some i ∧ _ from clears)]
    exact ⟨rfl, by rintro _ ⟨⟩⟩
  · rw [if_neg (show ¬ ((t.setSlot i _).fgIndex = some i ∧ _) from clears)]
    refine ⟨rfl, fun fg current => ⟨current, ?_⟩⟩
    rintro rfl _ _
    by_contra moved
    exact clears ⟨current, moved⟩

theorem foldl_chldTurn_rest {t : JobTable} {answers : Fin maxJobs → Int × Int} {slots : List (Fin maxJobs)}
    (distinct : slots.Nodup) :
    (slots.foldl (fun t i => t.chldTurn (answers i) i) t).nextJid = t.nextJid ∧
      ∀ fg, (slots.foldl (fun t i => t.chldTurn (answers i) i) t).fgIndex = some fg →
        t.fgIndex = some fg ∧ (fg ∈ slots → (t.table fg).jid ≠ 0 → 0 < (answers fg).1 →
          JobTable.stateOf (answers fg).2 = .running) := by
  induction slots generalizing t with
  | nil => exact ⟨rfl, fun fg current => ⟨current, nofun⟩⟩
  | cons i rest ih =>
      obtain ⟨fresh, distinct'⟩ := List.nodup_cons.mp distinct
      obtain ⟨nextJid, later⟩ := @ih (t.chldTurn (answers i) i) distinct'
      obtain ⟨nextJid', now⟩ := chldTurn_rest t i (answers i)
      refine ⟨nextJid.trans nextJid', fun fg current => ?_⟩
      obtain ⟨middle, inRest⟩ := later fg current
      obtain ⟨was, here⟩ := now fg middle
      refine ⟨was, fun member live some_ => ?_⟩
      rcases List.mem_cons.mp member with rfl | behind
      · exact here rfl live some_
      · have apart : fg ≠ i := fun same => fresh (same ▸ behind)
        apply inRest behind _ some_
        rw [chldTurn_table, if_neg fun both => apart both.1]
        exact live

theorem chldHandler_rest (t : JobTable) (answers : Fin maxJobs → Int × Int) :
    (t.chldHandler answers).nextJid = t.nextJid ∧
      ∀ fg, (t.chldHandler answers).fgIndex = some fg →
        t.fgIndex = some fg ∧ ((t.table fg).jid ≠ 0 → 0 < (answers fg).1 →
          JobTable.stateOf (answers fg).2 = .running) := by
  rw [JobTable.chldHandler]
  obtain ⟨nextJid, current⟩ := @foldl_chldTurn_rest t answers _ (List.nodup_finRange maxJobs)
  refine ⟨nextJid, fun fg stays => ?_⟩
  obtain ⟨was, still⟩ := current fg stays
  exact ⟨was, still (List.mem_finRange fg)⟩

theorem sigchld_ended (exits : Fin maxJobs → Option ReapStatus) : Ended h (h.step (.sigchld exits)) := by
  obtain ⟨nextJid, current⟩ := chldHandler_rest h.jobs (reapAnswers h.jobs exits)
  have jids : ∀ j, ((h.jobs.chldHandler (reapAnswers h.jobs exits)).table j).jid = (h.jobs.table j).jid := by
    intro j
    rw [chldHandler_table]
    split <;> rfl
  rw [step]
  generalize h.jobs.chldHandler (reapAnswers h.jobs exits) = after at nextJid current jids
  refine ⟨nextJid, rfl, rfl, ?_, ?_, ?_⟩
  · intro j live
    exact ⟨fun free => live ((jids j).trans free), jids j⟩
  · rintro j ⟨live, foreground, unfinished⟩
    exact ⟨fun free => live ((jids j).trans free), foreground, (Bool.or_eq_false_iff.mp unfinished).1⟩
  · intro fg stays
    obtain ⟨was, unreaped⟩ := current fg stays
    refine ⟨was, fun ⟨live, foreground, unfinished⟩ => ⟨?_, foreground, ?_⟩⟩
    · exact fun free => live ((jids fg).symm.trans free)
    · apply Bool.or_eq_false_iff.mpr
      refine ⟨unfinished, decide_eq_false ?_⟩
      rintro ⟨_, positive⟩
      have still := unreaped live positive
      rw [reapAnswers] at positive still
      cases exit : exits fg with
      | none =>
          rw [exit] at positive
          exact absurd positive (Int.lt_irrefl 0)
      | some exit_ =>
          rw [exit] at still
          obtain ⟨pcb, stored⟩ := exit_.stored
          exact stateOf_ne_running stored still

end Endings

section Runs

theorem step_full (full : h.jobs.findEmptySlot = none) : h.step (.add pid cmdline bg) = h := by
  simp only [step, JobTable.jobsAdd, full]

theorem Sound.step (sound : h.Sound) (careful : h.Careful op) : (h.step op).Sound := by
  cases op with
  | add pid cmdline bg =>
      cases free : h.jobs.findEmptySlot with
      | none =>
          rw [step_full free]
          exact sound
      | some idx =>
          have more : 0 < h.jobs.nextJid := careful.resolve_left (by simp [free])
          exact sound.added (step_added free) (free_of_findEmptySlot free) more
  | update pid state => exact sound.ended (update_ended careful)
  | remove pid => exact sound.ended (remove_ended careful)
  | sigchld exits => exact sound.ended (sigchld_ended exits)

/-- A call that is not careful leads out of the consistent states at once. -/
theorem Sound.careful (sound : h.Sound) (after : (h.step op).Consistent) : h.Careful op := by
  cases op with
  | add pid cmdline bg =>
      cases free : h.jobs.findEmptySlot with
      | none => exact .inl free
      | some idx =>
          have added := @step_added h pid cmdline bg idx free
          rcases sound.range with wrapped | below
          · have live : (h.step (.add pid cmdline bg)).Live idx := by
              rw [Live, added.jid]
              omega
            have positive := after.positive idx live
            rw [added.jid] at positive
            exact .inr positive
          · exact .inr below.1
  | update pid state =>
      intro finishes i found current
      have stays := (jobsUpdate_rest h.jobs pid state).2.trans current
      obtain ⟨⟨_, _, unfinished⟩, _⟩ := after.current i stays
      have finished := (Bool.or_eq_false_iff.mp unfinished).2
      exact of_decide_eq_false finished ⟨finishes, found⟩
  | remove pid =>
      intro i found current
      have removed : h.jobs.jobsRemove pid = h.jobs.setSlot i .cleared := by
        simp only [JobTable.jobsRemove, found]
      have stays : (h.jobs.jobsRemove pid).fgIndex = some i := by
        rw [removed]
        exact current
      obtain ⟨⟨live, _⟩, _⟩ := after.current i stays
      rw [Live, History.step, removed] at live
      apply live
      rw [JobTable.setSlot]
      dsimp only
      rw [Function.update_self]
      rfl
  | sigchld exits => trivial

theorem Sound.run_iff (sound : h.Sound) :
    (∀ n, (h.run (ops.take n)).Consistent) ↔
      ∀ n op, ops[n]? = some op → (h.run (ops.take n)).Careful op := by
  induction ops generalizing h with
  | nil =>
      constructor
      · intro _ n op at_
        simp at at_
      · intro _ n
        rw [List.take_nil]
        exact sound.toConsistent
  | cons first rest ih =>
      constructor
      · intro consistent
        have careful := sound.careful (consistent 1)
        have later := (ih (sound.step careful)).mp fun n => consistent (n + 1)
        intro n op at_
        cases n with
        | zero =>
            obtain rfl : first = op := by simpa using at_
            exact careful
        | succ n => exact later n op (by simpa using at_)
      · intro careful
        have later := (ih (sound.step (careful 0 first (by simp)))).mpr fun n op at_ =>
          careful (n + 1) op (by simpa using at_)
        intro n
        cases n with
        | zero => exact sound.toConsistent
        | succ n => exact later n

/-- The table is consistent throughout a run exactly when no call in it removes, or declares done, the
job in the foreground slot, and ids have not wrapped. -/
theorem jobs_consistent_iff (ops : List JobOp) :
    (∀ n, (start.run (ops.take n)).Consistent) ↔
      ∀ n op, ops[n]? = some op → (start.run (ops.take n)).Careful op := start_sound.run_iff

/-- A foreground job is added and removed, and `jobs_current_fg` still points to its slot. -/
theorem removed_job_current :
    ¬ ∀ ops : List JobOp, (start.run ops).Consistent := by
  intro always
  have current := (always [.add 3 [] false, .remove 3]).current 0 rfl
  exact current.1.1 rfl

end Runs

end History

end PennOs.User

import PennOs.Fat.DirectoryMaps
import PennOs.Fat.HostAnswers
import PennOs.Fat.RemovedDirectories

set_option autoImplicit false

/- What `k_unlink` removes, on any mounted volume with one FAT block and whatever the host does. -/
namespace PennOs.Fat

open Fs

variable {s t : Fs} {b cur first i : Nat} {now : UInt64} {path : List UInt8}

section Freeing

/-- The FAT is mapped over no byte past the first block. -/
def Fs.OneFatBlock (s : Fs) : Prop := ∀ i, s.fatMapped i = true → 2 * i + 2 ≤ s.gBlockSize

/-- The blocks a walk from `first` visits were set free, and nothing else happened. -/
structure Freed (s : Fs) (first : Nat) (t : Fs) : Prop where
  same : t = { s with file := t.file }
  behind : ∀ a, s.gBlockSize ≤ a → t.file a = s.file a
  mapped : ∀ b, s.OnChain first b → s.fatMapped b = true
  freed : ∀ b, s.OnChain first b → t.fat b = fatFree
  kept : ∀ b, ¬ s.OnChain first b → t.fat b = s.fat b

theorem fat_setFree (s : Fs) (cur b : Nat) :
    (s.setFat cur fatFree).fat b = if b = cur then fatFree else s.fat b := fat_setFat s (by decide) b

/-- Freeing the first block cuts the chain behind it. -/
theorem onChain_cut (used : ¬ (cur = fatEoc ∨ cur = fatFree)) : s.OnChain cur b ↔
    b = cur ∨ ¬ (s.fat cur = fatEoc ∨ s.fat cur = fatFree) ∧
      (s.setFat cur fatFree).OnChain (s.fat cur) b := by
  constructor
  · intro on
    induction on with
    | start => exact .inl rfl
    | next _ more more' ih =>
        rcases ih with rfl | ⟨goes, on⟩
        · exact .inr ⟨not_or.mpr ⟨more, more'⟩, .start⟩
        · refine .inr ⟨goes, ?_⟩
          rename_i c _
          by_cases here : c = cur
          · subst here
            exact .start
          · have same : (s.setFat cur fatFree).fat c = s.fat c := by rw [fat_setFree, if_neg here]
            rw [← same] at more more' ⊢
            exact .next on more more'
  · rintro (rfl | ⟨goes, on⟩)
    · exact .start
    · obtain ⟨more, more'⟩ := not_or.mp goes
      induction on with
      | start => exact .next .start more more'
      | next _ ends free ih =>
          rename_i c _
          have apart : c ≠ cur := by
            rintro rfl
            rw [fat_setFree, if_pos rfl] at free
            exact free rfl
          have same : (s.setFat cur fatFree).fat c = s.fat c := by rw [fat_setFree, if_neg apart]
          rw [same] at ends free ⊢
          exact .next ih ends free

theorem freeLoop_ended {fuel : Nat} (ended : cur = fatEoc ∨ cur = fatFree)
    (run : freeLoop fuel cur s = some ((), t)) : t = s := by
  cases fuel with
  | zero => cases run
  | succ fuel =>
      unfold freeLoop at run
      rw [if_pos ended] at run
      cases run
      rfl

theorem freeLoop_freed {fuel : Nat} (one : s.OneFatBlock) (used : ¬ (cur = fatEoc ∨ cur = fatFree))
    (run : freeLoop fuel cur s = some ((), t)) : Freed s cur t := by
  induction fuel generalizing s cur with
  | zero => cases run
  | succ fuel ih =>
      unfold freeLoop at run
      rw [if_neg used] at run
      obtain ⟨next, u, get, run⟩ := Prog.bind_inv run
      obtain ⟨_, v, set, run⟩ := Prog.bind_inv run
      unfold fatGet at get
      split at get
      swap
      · cases get
      next mapped =>
      cases get
      rw [fatSet_mapped _ mapped] at set
      cases set
      have inside := one cur mapped
      have cut : ∀ b, s.gBlockSize ≤ b → (s.setFat cur fatFree).file b = s.file b :=
        fun b past => overlay_outside (by omega)
      by_cases ended : s.fat cur = fatEoc ∨ s.fat cur = fatFree
      · obtain rfl := freeLoop_ended ended run
        have single : ∀ b, s.OnChain cur b ↔ b = cur := by
          intro b
          rw [onChain_cut used]
          exact ⟨fun on => on.elim id fun other => absurd ended other.1, .inl⟩
        constructor
        · rfl
        · exact cut
        · intro b on
          rw [(single b).mp on]
          exact mapped
        · intro b on
          rw [fat_setFree, if_pos ((single b).mp on)]
        · intro b off
          rw [fat_setFree, if_neg fun same => off ((single b).mpr same)]
      · have freed := ih (s := s.setFat cur fatFree) one ended run
        constructor
        · rw [freed.same]
          rfl
        · intro b past
          rw [freed.behind b past]
          exact cut b past
        · intro b on
          rcases (onChain_cut used).mp on with rfl | ⟨_, on⟩
          · exact mapped
          · exact freed.mapped b on
        · intro b on
          by_cases on' : (s.setFat cur fatFree).OnChain (s.fat cur) b
          · exact freed.freed b on'
          · rcases (onChain_cut used).mp on with rfl | ⟨_, other⟩
            · rw [freed.kept b on', fat_setFree, if_pos rfl]
            · exact absurd other on'
        · intro b off
          have off' : ¬ (s.setFat cur fatFree).OnChain (s.fat cur) b :=
            fun on => off ((onChain_cut used).mpr (.inr ⟨ended, on⟩))
          have apart : b ≠ cur := fun same => off ((onChain_cut used).mpr (.inl same))
          rw [freed.kept b off', fat_setFree, if_neg apart]

/-- The FAT entries in use that a block of the largest size holds. -/
def Fs.usedEntries (s : Fs) : Finset Nat := {b ∈ Finset.range 2048 | s.fat b ≠ fatFree}

/-- A chain that stays inside the mapped FAT is freed, even one that runs into itself. -/
theorem freeLoop_ends {fuel : Nat} (one : s.OneFatBlock) (small : s.gBlockSize ≤ 4096)
    (mapped : ¬ (cur = fatEoc ∨ cur = fatFree) → ∀ b, s.OnChain cur b → s.fatMapped b = true)
    (enough : s.usedEntries.card + 2 ≤ fuel) : ∃ t, freeLoop fuel cur s = some ((), t) := by
  induction fuel generalizing s cur with
  | zero => omega
  | succ fuel ih =>
      unfold freeLoop
      by_cases ended : cur = fatEoc ∨ cur = fatFree
      · exact ⟨s, by rw [if_pos ended]; rfl⟩
      have here := mapped ended cur .start
      rw [if_neg ended, Prog.bind_of_run (fatGet_mapped here), Prog.bind_of_run (fatSet_mapped _ here)]
      by_cases ended' : s.fat cur = fatEoc ∨ s.fat cur = fatFree
      · cases fuel with
        | zero => omega
        | succ fuel =>
            unfold freeLoop
            exact ⟨_, by rw [if_pos ended']; rfl⟩
      refine ih one small (fun _ b on => mapped ended b ((onChain_cut ended).mpr (.inr ⟨ended', on⟩))) ?_
      have less : (s.setFat cur fatFree).usedEntries ⊂ s.usedEntries := by
        refine Finset.ssubset_iff_subset_ne.mpr ⟨fun b member => ?_, fun same => ?_⟩
        · obtain ⟨inside, used⟩ := Finset.mem_filter.mp member
          rw [fat_setFree] at used
          refine Finset.mem_filter.mpr ⟨inside, fun free => used ?_⟩
          split
          · rfl
          · exact free
        · have bound := one cur here
          have old : cur ∈ s.usedEntries :=
            Finset.mem_filter.mpr ⟨Finset.mem_range.mpr (by omega), (not_or.mp ended').2⟩
          rw [← same] at old
          obtain ⟨_, used⟩ := Finset.mem_filter.mp old
          rw [fat_setFree, if_pos rfl] at used
          exact used rfl
      have fewer := Finset.card_lt_card less
      omega

end Freeing

section Finding

variable {w : Fs} {r : ResolvedPath} {follow : Bool} {d parent : Nat}
  {recurse recurse' : List UInt8 → FsM (PennFatErr × ResolvedPath)}

/-- A lookup came to a live entry of a block of the image. -/
structure Fs.Hit (w : Fs) (r : ResolvedPath) : Prop where
  block : ¬ (r.entryBlock = fatFree ∨ r.entryBlock = fatEoc)
  small : r.entryBlock < 65536
  stored : w.blockOffset r.entryBlock + w.gBlockSize ≤ w.fileSize
  index : ∃ i < w.entriesPerBlock, r.entryIndexInBlock = (i : Int) ∧ r.entry = w.dirent (r.entryBlock, i)
  live : r.entry.live = true
  plain : r.isRoot = false

/-- What a path that is found leads to. -/
def Fs.Lands (w : Fs) (follow : Bool) (r : ResolvedPath) : Prop :=
  r.entry.type = DirEntry.typeDirectory ∨
    w.Hit r ∧ (follow = true → r.entry.type ≠ DirEntry.typeSymlink)

/-- How it is reached: as a directory without a lookup of its own, or by a lookup. -/
def Fs.Arrives (w : Fs) (follow : Bool) (r : ResolvedPath) : Prop :=
  r.entryIndexInBlock = -1 ∧ r.entry.type = DirEntry.typeDirectory ∨
    w.Hit r ∧ (follow = true → r.entry.type ≠ DirEntry.typeSymlink)

theorem OnlyHost.fdOpen (only : OnlyHost w s) : s.fdOpen = w.fdOpen := by
  rw [only.same]
  rfl

theorem findLoop_hit (opened : w.fdOpen = true) (name : List UInt8) (fuel : Nat) (small : cur < 65536) :
    Prog.Hoare (OnlyHost w) (findLoop name fuel cur) fun res _ => ∀ b i e,
      res = .ok (some (b, i, e)) → w.Hit ⟨true, false, e, b, (i : Nat), d⟩ := by
  induction fuel generalizing cur with
  | zero => exact .fault
  | succ fuel ih =>
      unfold findLoop
      refine .ite (fun _ => .pure fun _ _ _ _ _ => (by rintro ⟨⟩)) fun proper => ?_
      refine .seq (fun read s => OnlyHost w s ∧ ∀ buf, read = some buf →
        w.blockOffset cur + w.gBlockSize ≤ w.fileSize ∧ buf = w.block cur) ?_ fun read => ?_
      · intro s read t only run
        refine ⟨Trans.trans only (readBlock_host cur s read t run), ?_⟩
        rintro buf rfl
        obtain ⟨_, stored, same, _⟩ := (readBlock_some_iff (only.fdOpen.trans opened)).mp run
        rw [only.same] at stored same
        exact ⟨stored, same⟩
      · cases read with
        | none => exact .pure fun _ _ _ _ _ => (by rintro ⟨⟩)
        | some buf =>
            refine .get fun s => ?_
            rintro t res u ⟨rfl, only, known⟩ run
            obtain ⟨stored, rfl⟩ := known buf rfl
            have slots : t.entriesPerBlock = w.entriesPerBlock := by
              rw [only.same]
              rfl
            rw [slots] at run
            have scanned : scanBlock (w.block cur) name w.entriesPerBlock 0 =
                scanRow (fun j => w.dirent (cur, j)) name w.entriesPerBlock 0 := scanBlock_eq fun _ _ _ => rfl
            cases scan : scanBlock (w.block cur) name w.entriesPerBlock 0 with
            | some index =>
                rw [scan] at run
                cases run
                rintro b i e same
                cases same
                obtain ⟨_, inside, live, _⟩ := scanRow_some (scanned ▸ scan)
                exact ⟨fun bad => proper bad.symm, small, stored, ⟨index, by omega, rfl, rfl⟩, live, rfl⟩
            | none =>
                rw [scan] at run
                obtain ⟨next, v, got, rest⟩ := Prog.bind_inv run
                unfold fatGet at got
                split at got
                · cases got
                  exact ih (fat_lt t cur) t res u only rest
                · cases got

theorem findEntryInDir_hit (opened : w.fdOpen = true) (name : List UInt8) (small : d < 65536) :
    Prog.Hoare (OnlyHost w) (findEntryInDir d name) fun res s => OnlyHost w s ∧ ∀ hit,
      res = .ok hit → hit.found = true → w.Hit hit := by
  intro s res t only run
  refine ⟨Trans.trans only (findEntryInDir_host d name s res t run), ?_⟩
  rintro hit rfl found
  unfold findEntryInDir at run
  split at run
  · cases run
  obtain ⟨room, u, first, run⟩ := Prog.bind_inv run
  split at run
  · cases run
  obtain ⟨result, v, loop, run⟩ := Prog.bind_inv run
  have hits := findLoop_hit (d := d) opened name (chainFuel + 1) small u result v
    (Trans.trans only (hostOk_host s room u first)) loop
  rcases result with err | _ | ⟨b, i, e⟩
  · cases run
  · cases run
    cases found
  · cases run
    exact hits b i e rfl

theorem walk_arrives (opened : w.fdOpen = true)
    (targets : ∀ target, Prog.Hoare (OnlyHost w) (recurse target) fun res _ =>
      res.2.found = true → w.Arrives follow res.2)
    (components : List (List UInt8)) (small : cur < 65536) :
    Prog.Hoare (OnlyHost w) (walk now follow recurse components cur parent) fun res _ =>
      res.2.found = true → w.Arrives follow res.2 := by
  induction components generalizing cur parent with
  | nil => exact .pure fun _ _ _ => .inl ⟨rfl, rfl⟩
  | cons component rest ih =>
      unfold walk
      refine .ite (fun _ => ih small) fun _ =>
        .ite (fun _ => .ite (fun _ => ih small) fun _ => ?_) fun _ => ?_
      · refine (findEntryInDir_hit opened dotDot small).bind fun found => ?_
        cases found with
        | error err => exact .pure fun _ _ => (by rintro ⟨⟩)
        | ok up =>
            refine .ite (fun _ => .pure fun _ _ => (by rintro ⟨⟩)) fun _ => ?_
            exact (ih up.entry.firstBlock.toNat_lt).mono (fun _ start => start.1) fun _ _ post => post
      · refine (findEntryInDir_hit opened component small).bind fun found => ?_
        cases found with
        | error err => exact .pure fun _ _ => (by rintro ⟨⟩)
        | ok hit =>
            refine .ite (fun _ => .pure fun _ _ => (by rintro ⟨⟩)) fun present => ?_
            have present' : hit.found = true := by simpa using present
            cases rest with
            | nil =>
                refine .ite (fun _ => ?_) fun other => .pure fun _ start _ => ?_
                · refine .seq (fun _ => OnlyHost w) (fun s target t start run =>
                    Trans.trans start.1 (readSymlinkTarget_host hit.entry s target t run)) fun target => ?_
                  cases target with
                  | error err => exact .pure fun _ _ => (by rintro ⟨⟩)
                  | ok target => exact targets target
                · obtain ⟨block, small, stored, index, live, plain⟩ := start.2 hit rfl present'
                  exact .inr ⟨⟨block, small, stored, index, live, plain⟩, fun asked link =>
                    other ⟨asked, link⟩⟩
            | cons next rest =>
                refine .ite (fun _ => .pure fun _ _ => (by rintro ⟨⟩)) fun _ => ?_
                exact (ih hit.entry.firstBlock.toNat_lt).mono (fun _ start => start.1) fun _ _ post => post

theorem resolvePathInternal_arrives (opened : w.fdOpen = true) (cwd : w.gCwdBlock < 65536) (levels : Nat)
    (path : List UInt8) :
    Prog.Hoare (OnlyHost w) (resolvePathInternal now follow levels path) fun res _ =>
      res.2.found = true → w.Arrives follow res.2 := by
  induction levels generalizing path with
  | zero => exact .pure fun _ _ => nofun
  | succ levels ih =>
      unfold resolvePathInternal
      refine .get fun s => ?_
      cases path with
      | nil =>
          exact .ite (fun _ => .pure fun _ _ _ => .inl ⟨rfl, rfl⟩) fun _ => .pure fun _ _ _ => .inl ⟨rfl, rfl⟩
      | cons c rest =>
          refine .ite (fun _ => .ite (fun _ => .pure fun _ _ _ => .inl ⟨rfl, rfl⟩) fun _ => ?_) fun _ => ?_
          · exact (walk_arrives opened ih _ (by decide)).mono (fun _ start => start.2) fun _ _ post => post
          · rintro t res u ⟨rfl, only⟩ run
            have same : t.gCwdBlock = w.gCwdBlock := by
              rw [only.same]
            exact walk_arrives opened ih _ (same ▸ cwd) t res u only run

theorem Fs.Arrives.lands (arrives : w.Arrives follow r) : w.Lands follow r := by
  rcases arrives with ⟨_, dir⟩ | hit
  · exact .inl dir
  · exact .inr hit

theorem resolvePath_arrives (opened : w.fdOpen = true) (cwd : w.gCwdBlock < 65536) (named : path ≠ [slash]) :
    Prog.Hoare (OnlyHost w) (resolvePath now path) fun res _ =>
      res.2.found = true → w.Arrives true res.2 := by
  rw [resolvePath, if_neg named]
  exact resolvePathInternal_arrives opened cwd symlinkLevels path

theorem resolvePath_lands (opened : w.fdOpen = true) (cwd : w.gCwdBlock < 65536) (named : path ≠ [slash]) :
    Prog.Hoare (OnlyHost w) (resolvePath now path) fun res _ =>
      res.1 = .ok → res.2.found = true → w.Lands true res.2 :=
  (resolvePath_arrives opened cwd named).mono (fun _ start => start)
    fun _ _ arrives _ found => (arrives found).lands

/-- An entry that is no symbolic link is found either way. -/
theorem walk_followed {components : List (List UInt8)}
    (run : walk now false recurse components cur parent s = some ((.ok, r), t)) (found : r.found = true)
    (type : r.entry.type ≠ DirEntry.typeSymlink) :
    walk now true recurse' components cur parent s = some ((.ok, r), t) := by
  induction components generalizing cur parent s with
  | nil => exact run
  | cons component rest ih =>
      unfold walk at run ⊢
      split
      · next here =>
          rw [if_pos here] at run
          exact ih run
      next here =>
      rw [if_neg here] at run
      split
      · next up =>
          rw [if_pos up] at run
          split
          · next top =>
              rw [if_pos top] at run
              exact ih run
          next top =>
          rw [if_neg top] at run
          obtain ⟨hit, u, first, run⟩ := Prog.bind_inv run
          rw [Prog.bind_of_run first]
          cases hit with
          | error err => exact run
          | ok hit =>
              dsimp only at run ⊢
              split
              · next missing =>
                  rw [if_pos missing] at run
                  exact run
              · next present =>
                  rw [if_neg present] at run
                  exact ih run
      next up =>
      rw [if_neg up] at run
      obtain ⟨hit, u, first, run⟩ := Prog.bind_inv run
      rw [Prog.bind_of_run first]
      cases hit with
      | error err => exact run
      | ok hit =>
          dsimp only at run ⊢
          split
          · next missing =>
              rw [if_pos missing] at run
              exact run
          next present =>
          rw [if_neg present] at run
          cases rest with
          | nil =>
              dsimp only at run ⊢
              rw [if_neg (by simp)] at run
              rw [if_neg]
              · exact run
              · rintro ⟨_, link⟩
                cases run
                exact type link
          | cons next rest =>
              dsimp only at run ⊢
              split
              · next other =>
                  rw [if_pos other] at run
                  exact run
              · next proper =>
                  rw [if_neg proper] at run
                  exact ih run

theorem resolvePath_followed (run : resolvePathNoFollow now path s = some ((.ok, r), t))
    (found : r.found = true) (type : r.entry.type ≠ DirEntry.typeSymlink) (named : path ≠ [slash]) :
    resolvePath now path s = some ((.ok, r), t) := by
  rw [resolvePath, if_neg named]
  unfold resolvePathNoFollow symlinkLevels at run
  unfold symlinkLevels
  unfold resolvePathInternal at run ⊢
  rw [Prog.get_bind] at run ⊢
  cases path with
  | nil => exact run
  | cons c rest =>
      dsimp only at run ⊢
      split
      · next absolute =>
          rw [if_pos absolute] at run
          split
          · next top =>
              rw [if_pos top] at run
              exact run
          · next proper =>
              rw [if_neg proper] at run
              exact walk_followed run found type
      · next relative =>
          rw [if_neg relative] at run
          exact walk_followed run found type

end Finding

section Unlinking

variable {r : ResolvedPath} {q : Nat × Nat}

/-- The entry in the slot `q` is marked deleted and its chain set free, and every other FAT entry and
directory entry is the same. -/
structure UnlinksOnly (s : Fs) (q : Nat × Nat) (t : Fs) : Prop where
  deleted : t.dirent q = .deleted
  freed : ∀ b, ¬ (s.firstOf q = fatEoc ∨ s.firstOf q = fatFree) → s.OnChain (s.firstOf q) b →
    t.fat b = fatFree
  kept : ∀ b, s.fatMapped b = true →
    ((s.firstOf q = fatEoc ∨ s.firstOf q = fatFree) ∨ ¬ s.OnChain (s.firstOf q) b) → t.fat b = s.fat b
  others : ∀ p : Nat × Nat, p ≠ q → 1 ≤ p.1 → p.1 < 65536 → p.2 < s.entriesPerBlock → t.dirent p = s.dirent p

theorem OnlyHost.onChain_iff (only : OnlyHost s t) : t.OnChain first b ↔ s.OnChain first b := by
  have same : t.fat = s.fat := by
    rw [only.same]
    rfl
  constructor
  · intro on
    induction on with
    | start => exact .start
    | next _ ends free ih =>
        rw [same] at ends free ⊢
        exact .next ih ends free
  · intro on
    induction on with
    | start => exact .start
    | next _ ends free ih =>
        rw [← same] at ends free ⊢
        exact .next ih ends free

theorem UnlinksOnly.of_host {u : Fs} (unlinks : UnlinksOnly u q t) (only : OnlyHost s u) :
    UnlinksOnly s q t := by
  have firsts : u.firstOf q = s.firstOf q := by
    rw [only.same]
    rfl
  obtain ⟨deleted, freed, kept, others⟩ := unlinks
  rw [firsts] at freed kept
  simp only [only.onChain_iff] at freed kept
  rw [only.same] at kept others
  exact ⟨deleted, freed, kept, others⟩

/-- The chain of an entry stays inside the mapped FAT. -/
def Fs.Walkable (s : Fs) (first : Nat) : Prop :=
  ¬ (first = fatEoc ∨ first = fatFree) → ∀ b, s.OnChain first b → s.fatMapped b = true

theorem oneFatBlock (mounted : s.calm.Mounted 1) : s.OneFatBlock := by
  intro i mapped
  obtain ⟨mapping, pointer, _, bytes⟩ := mounted.mapping
  have pointer' : s.gFat = some mapping := pointer
  have bytes' : mapping.bytes = 1 * s.gBlockSize := bytes
  simp only [Fs.fatMapped, pointer', Bool.and_eq_true, decide_eq_true_eq] at mapped
  omega

/-- Blocks behind the FAT are not touched when chains are freed. -/
theorem Freed.dirent (freed : Freed s first t) (mounted : s.calm.Mounted 1) {p : Nat × Nat} (low : 1 ≤ p.1)
    (high : p.1 < 65536) : t.dirent p = s.dirent p := by
  have size : t.gBlockSize = s.gBlockSize := by
    rw [freed.same]
  have offset : s.blockOffset p.1 = p.1 * s.gBlockSize := mounted.blockOffset_eq high
  have offset' : t.blockOffset p.1 = p.1 * s.gBlockSize := by
    rw [← offset, blockOffset, blockOffset, size]
  have behind : s.gBlockSize ≤ p.1 * s.gBlockSize := Nat.le_mul_of_pos_left _ low
  have same : t.block p.1 = s.block p.1 := by
    funext j
    by_cases inside : j < s.gBlockSize
    · simp only [block, size, inside, ↓reduceIte, offset, offset']
      exact freed.behind _ (by omega)
    · simp only [block, size, inside, ↓reduceIte]
  rw [Fs.dirent, Fs.dirent, same]

/-- An entry is written over on a volume that is mounted. -/
theorem dirent_putDirent (mounted : s.calm.Mounted 1) {p : Nat × Nat} (bound : q.1 < 65536)
    (bound' : p.1 < 65536) (inside : p.2 < s.entriesPerBlock) (e : DirEntry) :
    (s.putDirent q e).dirent p = if p = q then e else s.dirent p := by
  have written : (s.calm.putDirent q e).view.slot p.1 p.2 = (s.calm.view.setSlot q e).slot p.1 p.2 :=
    view_putDirent mounted bound bound' inside
  split
  · next same =>
      subst same
      exact written.trans (Image.setSlot_self _ p e)
  · next apart => exact written.trans (Image.setSlot_ne _ e apart)

theorem fat_putDirent (mounted : s.calm.Mounted 1) (low : 1 ≤ q.1) (bound : q.1 < 65536) (e : DirEntry)
    (mapped : s.fatMapped b = true) : (s.putDirent q e).fat b = s.fat b := by
  have inside := oneFatBlock mounted b mapped
  have inside' : b < 1 * s.gBlockSize / 2 := by omega
  exact mounted.fat_putBlock (s := s.calm) (setDirentAt (s.block q.1) q.2 e) low bound inside'

theorem putDirent_unlinks (mounted : s.calm.Mounted 1) (low : 1 ≤ q.1) (high : q.1 < 65536)
    (inside : q.2 < s.entriesPerBlock) (freed : Freed s (s.firstOf q) t)
    (used : ¬ (s.firstOf q = fatEoc ∨ s.firstOf q = fatFree)) :
    UnlinksOnly s q ((t.skip 6).putDirent q .deleted) := by
  have mounted' : (t.skip 6).calm.Mounted 1 := by
    rw [freed.same]
    exact mounted.of_eq rfl rfl rfl rfl rfl rfl rfl rfl
  have slots : (t.skip 6).entriesPerBlock = s.entriesPerBlock := by
    rw [freed.same]
    rfl
  have mapped : ∀ b, (t.skip 6).fatMapped b = s.fatMapped b := by
    intro b
    rw [freed.same]
    rfl
  constructor
  · rw [dirent_putDirent mounted' high high (slots ▸ inside), if_pos rfl]
  · intro b _ on
    rw [fat_putDirent mounted' low high _ ((mapped b).trans (freed.mapped b on))]
    exact freed.freed b on
  · intro b inFat off
    rw [fat_putDirent mounted' low high _ ((mapped b).trans inFat)]
    exact freed.kept b (off.resolve_left used)
  · intro p apart low' high' inside'
    rw [dirent_putDirent mounted' high high' (slots ▸ inside'), if_neg apart]
    exact freed.dirent mounted low' high'

theorem unlinkEntry_unlinks (mounted : s.calm.Mounted 1) (hit : s.Hit r)
    (run : unlinkEntry r s = some (.ok, t)) :
    UnlinksOnly s (r.entryBlock, r.entryIndexInBlock.toNat) t ∧ s.Walkable r.entry.firstBlock.toNat ∧
      s.Carries 6 := by
  obtain ⟨i, inside, place, entry⟩ := hit.index
  have opened : s.fdOpen = true := mounted.descriptor
  have low : 1 ≤ r.entryBlock := by
    have proper := (not_or.mp hit.block).1
    simp only [fatFree] at proper
    omega
  have first : s.firstOf (r.entryBlock, i) = r.entry.firstBlock.toNat := by rw [entry]; rfl
  have slot : (r.entryBlock, r.entryIndexInBlock.toNat) = (r.entryBlock, i) := by rw [place]; rfl
  rw [slot, ← first]
  unfold unlinkEntry at run
  rw [← first] at run
  by_cases ended : s.firstOf (r.entryBlock, i) = fatEoc ∨ s.firstOf (r.entryBlock, i) = fatFree
  · rw [if_neg (fun both => ended.elim both.1 both.2)] at run
    obtain ⟨_, _, _, carried, rfl⟩ := (writeDirent_ok_iff opened).mp run
    rw [slot]
    refine ⟨?_, fun used => absurd ended used, carried⟩
    have mounted' : (s.skip 6).calm.Mounted 1 := mounted
    constructor
    · rw [dirent_putDirent mounted' hit.small hit.small inside, if_pos rfl]
    · intro b used
      exact absurd ended used
    · intro b mapped _
      exact fat_putDirent mounted' low hit.small _ mapped
    · intro p apart _ high' inside'
      rw [dirent_putDirent mounted' hit.small high' inside', if_neg apart]
      rfl
  · rw [if_pos (not_or.mp ended)] at run
    obtain ⟨_, u, freeing, run⟩ := Prog.bind_inv run
    have freed := freeLoop_freed (oneFatBlock mounted) ended freeing
    have opened : u.fdOpen = true := by
      rw [freed.same]
      exact mounted.descriptor
    obtain ⟨_, _, _, carried, rfl⟩ := (writeDirent_ok_iff opened).mp run
    rw [slot]
    refine ⟨putDirent_unlinks mounted low hit.small inside freed ended, fun _ => freed.mapped, ?_⟩
    rw [freed.same] at carried
    exact carried

theorem unlinkEntry_ends (mounted : s.calm.Mounted 1) (hit : s.Hit r)
    (walkable : s.Walkable r.entry.firstBlock.toNat) (carried : s.Carries 6) :
    ∃ t, unlinkEntry r s = some (.ok, t) := by
  obtain ⟨i, inside, place, _⟩ := hit.index
  have opened : s.fdOpen = true := mounted.descriptor
  have valid : ¬ (r.entryIndexInBlock < 0 ∨ (s.entriesPerBlock : Int) ≤ r.entryIndexInBlock) := by omega
  unfold unlinkEntry
  by_cases ended : r.entry.firstBlock.toNat = fatEoc ∨ r.entry.firstBlock.toNat = fatFree
  · rw [if_neg (fun both => ended.elim both.1 both.2)]
    exact ⟨_, (writeDirent_ok_iff opened).mpr ⟨hit.block, valid, hit.stored, carried, rfl⟩⟩
  · rw [if_pos (not_or.mp ended)]
    have bounds := mounted.blockSize_bounds
    have few : s.usedEntries.card ≤ 2048 :=
      le_trans (Finset.card_filter_le _ _) (Finset.card_range 2048).le
    have fuel : s.usedEntries.card + 2 ≤ chainFuel + 1 := by
      simp only [chainFuel]
      omega
    obtain ⟨u, freeing⟩ := freeLoop_ends (oneFatBlock mounted) bounds.2.1 walkable fuel
    have same := (freeLoop_freed (oneFatBlock mounted) ended freeing).same
    have freeing' : freeBlockChain r.entry.firstBlock.toNat s = some ((), u) := freeing
    rw [Prog.bind_of_run freeing']
    refine ⟨_, (writeDirent_ok_iff ?_).mpr ⟨hit.block, ?_, ?_, ?_, rfl⟩⟩
    · rw [same]
      exact opened
    · rw [same]
      exact valid
    · rw [same]
      exact hit.stored
    · rw [same]
      exact carried

/-- The path names the slot `q` of a live entry that is no directory; a symbolic link in last position
stands for itself. -/
def Fs.NamesSlot (s : Fs) (now : UInt64) (path : List UInt8) (q : Nat × Nat) : Prop :=
  ∃ r, resolvePathNoFollow now path s.calm = some ((.ok, r), s.calm) ∧ r.found = true ∧
    r.entry.type ≠ DirEntry.typeDirectory ∧ r.entryBlock = q.1 ∧ r.entryIndexInBlock = (q.2 : Nat)

/-- With links followed, the path leads to a file that no descriptor holds and whose chain stays inside
the FAT, and then the host carries out the calls that write its entry. -/
def Fs.LeadsToFile (s : Fs) (now : UInt64) (path : List UInt8) : Prop :=
  ∃ r u, resolvePath now path s = some ((.ok, r), u) ∧ r.found = true ∧
    r.entry.type ≠ DirEntry.typeDirectory ∧ s.busy (pseudoInode r.entryBlock r.entryIndexInBlock) = false ∧
    s.Walkable r.entry.firstBlock.toNat ∧ u.Carries 6

theorem namesSlot_proper (names : s.NamesSlot now path q) :
    ¬ (path = [] ∨ path = [slash] ∨ path = dot ∨ path = dotDot) := by
  obtain ⟨r, run, found, type, _⟩ := names
  unfold resolvePathNoFollow symlinkLevels resolvePathInternal at run
  rw [Prog.get_bind] at run
  rintro (rfl | rfl | rfl | rfl)
  · dsimp only at run
    split at run <;> cases run <;> exact type rfl
  · cases run
    exact type rfl
  · have single : components dot = [dot] := by decide
    dsimp only [dot] at run
    rw [if_neg (by decide), ← dot, single] at run
    cases run
    exact type rfl
  · have single : components dotDot = [dotDot] := by decide
    dsimp only [dotDot] at run
    rw [if_neg (by decide), ← dotDot, single] at run
    unfold walk at run
    rw [if_neg (by decide), if_pos rfl] at run
    split at run
    · cases run
      exact type rfl
    obtain ⟨up, u, _, run⟩ := Prog.bind_inv run
    cases up with
    | error err =>
        cases run
        cases found
    | ok up =>
        dsimp only at run
        split at run
        · cases run
          cases found
        · cases run
          exact type rfl

theorem namesSlot_hit (mounted : s.calm.Mounted 1) (cwd : s.gCwdBlock < 65536)
    (names : s.NamesSlot now path q) : ∃ r, resolvePathNoFollow now path s.calm = some ((.ok, r), s.calm) ∧
      s.Hit r ∧ r.entryBlock = q.1 ∧ r.entryIndexInBlock = (q.2 : Nat) ∧ r.entry = s.dirent q := by
  obtain ⟨r, run, found, type, block, index⟩ := names
  have arrives :=
    resolvePathInternal_arrives (w := s.calm) mounted.descriptor cwd symlinkLevels path s.calm _ _
    (Std.Refl.refl _) run found
  have hit : s.calm.Hit r := (arrives.lands.resolve_left type).1
  obtain ⟨i, inside, place, entry⟩ := hit.index
  obtain rfl : i = q.2 := by omega
  rw [block] at entry
  exact ⟨r, run, ⟨hit.block, hit.small, hit.stored, hit.index, hit.live, hit.plain⟩, block, index, entry⟩

/-- When `k_unlink` returns OK, and what it did then. -/
theorem kUnlink_ok (mounted : s.calm.Mounted 1) (cwd : s.gCwdBlock < 65536)
    (run : kUnlink now path s = some (.ok, t)) :
    s.LeadsToFile now path ∧ ∃ r u, resolvePath now path s = some ((.ok, r), u) ∧ s.Hit r ∧
      r.entry.type ≠ DirEntry.typeSymlink ∧ UnlinksOnly s (r.entryBlock, r.entryIndexInBlock.toNat) t := by
  rw [kUnlink_eq, Prog.get_bind] at run
  split at run
  · cases run
  split at run
  · cases run
  next proper =>
  obtain ⟨⟨err, r⟩, u, resolving, run⟩ := Prog.bind_inv run
  dsimp only at run
  split at run
  · next bad =>
      cases run
      exact absurd rfl bad
  next good =>
  obtain rfl : err = .ok := Decidable.of_not_not good
  split at run
  · cases run
  next present =>
  split at run
  · cases run
  next type =>
  rw [Prog.get_bind] at run
  split at run
  · cases run
  next idle =>
  have found : r.found = true := by simpa using fun missing => present (.inl missing)
  have opened : s.fdOpen = true := mounted.descriptor
  have lands := resolvePath_lands opened cwd (not_or.mp (not_or.mp proper).2).1 s _ _
    (Std.Refl.refl s) resolving rfl found
  have hit : s.Hit r := (lands.resolve_left type).1
  have only := resolvePath_host path s _ u resolving
  have calm : u.calm = s.calm := by
    rw [only.same]
    rfl
  have hit' : u.Hit r := by
    rw [only.same]
    exact ⟨hit.block, hit.small, hit.stored, hit.index, hit.live, hit.plain⟩
  obtain ⟨unlinks, walkable, carried⟩ := unlinkEntry_unlinks (calm ▸ mounted) hit' run
  have idle' : s.busy (pseudoInode r.entryBlock r.entryIndexInBlock) = false := by
    rw [only.same] at idle
    exact Bool.eq_false_iff.mpr idle
  have walkable' : s.Walkable r.entry.firstBlock.toNat := by
    intro used b on
    have mapped := walkable used b ((only.onChain_iff).mpr on)
    rw [only.same] at mapped
    exact mapped
  exact ⟨⟨r, u, resolving, found, type, idle', walkable', carried⟩, r, u, resolving, hit,
    (lands.resolve_left type).2 rfl, unlinks.of_host only⟩

theorem kUnlink_ends (mounted : s.calm.Mounted 1) (cwd : s.gCwdBlock < 65536)
    (proper : ¬ (path = [] ∨ path = [slash] ∨ path = dot ∨ path = dotDot)) (leads : s.LeadsToFile now path) :
    ∃ t, kUnlink now path s = some (.ok, t) := by
  obtain ⟨r, u, resolving, found, type, idle, walkable, carried⟩ := leads
  have opened : s.fdOpen = true := mounted.descriptor
  have lands := resolvePath_lands opened cwd (not_or.mp (not_or.mp proper).2).1 s _ _
    (Std.Refl.refl s) resolving rfl found
  have hit : s.Hit r := (lands.resolve_left type).1
  have only := resolvePath_host path s _ u resolving
  have calm : u.calm = s.calm := by
    rw [only.same]
    rfl
  have hit' : u.Hit r := by
    rw [only.same]
    exact ⟨hit.block, hit.small, hit.stored, hit.index, hit.live, hit.plain⟩
  have walkable' : u.Walkable r.entry.firstBlock.toNat := by
    intro used b on
    rw [only.same]
    exact walkable used b (only.onChain_iff.mp on)
  have idle' : ¬ u.busy (pseudoInode r.entryBlock r.entryIndexInBlock) = true := by
    rw [only.same]
    exact Bool.eq_false_iff.mp idle
  obtain ⟨t, run⟩ := unlinkEntry_ends (calm ▸ mounted) hit' walkable' carried
  refine ⟨t, ?_⟩
  have flag : s.gMounted = true := mounted.flag
  rw [kUnlink_eq, Prog.get_bind, if_neg (by simp [flag]), if_neg proper, Prog.bind_of_run resolving]
  dsimp only
  rw [if_neg (by simp), if_neg (by simp [found, hit.plain]), if_neg type, Prog.get_bind, if_neg idle']
  exact run

/-- `k_unlink` removes the named entry and nothing else, unless it is a symbolic link that leads to a
file: then the file is removed in its place. -/
theorem kUnlink_slot (s : Fs) (mounted : s.calm.Mounted 1) (cwd : s.gCwdBlock < 65536) (now : UInt64)
    (path : List UInt8) (q : Nat × Nat) (names : s.NamesSlot now path q) :
    (∀ t, kUnlink now path s = some (.ok, t) → UnlinksOnly s q t) ↔
      (s.dirent q).type ≠ DirEntry.typeSymlink ∨ ¬ s.LeadsToFile now path := by
  have proper := namesSlot_proper names
  obtain ⟨r, found, hit, block, index, entry⟩ := namesSlot_hit mounted cwd names
  constructor
  · intro only
    by_contra both
    obtain ⟨link, leads⟩ := not_or.mp both
    obtain ⟨t, run⟩ := kUnlink_ends mounted cwd proper (Classical.not_not.mp leads)
    have deleted := (only t run).deleted
    obtain ⟨_, r', u, _, hit', type, unlinks⟩ := kUnlink_ok mounted cwd run
    obtain ⟨i, _, place, entry'⟩ := hit'.index
    have apart : q ≠ (r'.entryBlock, r'.entryIndexInBlock.toNat) := by
      rintro rfl
      rw [place] at link
      exact type (entry' ▸ Classical.not_not.mp link)
    obtain ⟨j, inside, index', _⟩ := hit.index
    have low := (not_or.mp hit.block).1
    simp only [fatFree] at low
    have live := hit.live
    rw [unlinks.others q apart (by omega) (block ▸ hit.small) (by omega)] at deleted
    rw [entry, deleted] at live
    cases live
  · intro safe t run
    obtain ⟨leads, r', u, resolving, _, _, unlinks⟩ := kUnlink_ok mounted cwd run
    have type : (s.dirent q).type ≠ DirEntry.typeSymlink := safe.resolve_right fun no => no leads
    obtain ⟨_, run', present, _⟩ := names
    rw [found] at run'
    cases run'
    have named := (not_or.mp (not_or.mp proper).2).1
    have followed := resolvePath_followed found present (entry ▸ type) named
    rw [resolvePath_settles path s (.ok, r') u resolving rfl] at followed
    simp only [Option.some.injEq, Prod.mk.injEq, true_and] at followed
    obtain rfl := followed.1
    have slot : (r'.entryBlock, r'.entryIndexInBlock.toNat) = q := by
      rw [block, index]
      rfl
    exact slot ▸ unlinks

end Unlinking

section Examples

theorem namesSlot_of_value {q : Nat × Nat} {type : UInt8} (host : s.host = [])
    (value : (resolvePathNoFollow now path s).map (fun x => (x.1.1, x.1.2.found, x.1.2.entry.type,
      x.1.2.entryBlock, x.1.2.entryIndexInBlock)) = some (.ok, true, type, q.1, (q.2 : Int)))
    (other : type ≠ DirEntry.typeDirectory) : s.NamesSlot now path q := by
  obtain ⟨⟨⟨err, r⟩, u⟩, run, same⟩ := Option.map_eq_some_iff.mp value
  obtain rfl := (resolvePathInternal_host symlinkLevels path s _ u run).eq host
  simp only [Prod.mk.injEq] at same
  obtain ⟨rfl, found, rfl, block, index⟩ := same
  exact ⟨r, by rw [calm_of_host host]; exact run, found, other, block, index⟩

/-- A file "x" is made, and a symbolic link "l" to it. -/
def linkedFile : List Call := [.touch 1 (.literal [120]), .symlink 2 (.literal [120]) (.literal [108])]

theorem linkedFile_resting : ∃ I, Resting .plain ((runCalls linkedFile).after blankVolume) I := by
  have ends : (runCalls linkedFile blankVolume).isSome = true := by decide +kernel
  exact mounted_resting (.of_calls (runCalls_after ends) ⟨fun _ => createsSound_plain _ _ _,
    fun _ => createsSound_plain _ _ _, trivial⟩) (by decide +kernel)

theorem kUnlink_slot_linkedFile :
    Prog.Ensures (kUnlink 3 [120]) ((runCalls linkedFile).after blankVolume) fun err t =>
      err = .ok ∧ UnlinksOnly ((runCalls linkedFile).after blankVolume) (1, 0) t := by
  obtain ⟨s, isS⟩ : ∃ s, s = (runCalls linkedFile).after blankVolume := ⟨_, rfl⟩
  obtain ⟨I, resting⟩ := linkedFile_resting
  rw [← isS] at resting ⊢
  have ready := resting.tracks.ready
  have names : s.NamesSlot 3 [120] (1, 0) :=
    @namesSlot_of_value _ _ _ _ DirEntry.typeRegular ready.host (isS ▸ (by decide +kernel)) (by decide)
  have mounted : s.calm.Mounted 1 := (calm_of_host ready.host).symm ▸ ready.toMounted
  have cwd : s.gCwdBlock < 65536 := isS ▸ (by decide +kernel)
  have type : (s.dirent (1, 0)).type ≠ DirEntry.typeSymlink := isS ▸ (by decide +kernel)
  have result : (kUnlink 3 [120] s).map Prod.fst = some .ok := isS ▸ (by decide +kernel)
  have run := Prog.run_after result
  exact ⟨.ok, _, run, rfl, (kUnlink_slot s mounted cwd 3 [120] (1, 0) names).mpr (.inl type) _ run⟩

/-- Unlinking "l" removes "x". -/
theorem unlink_follows_link :
    ¬ ∀ (s : Fs), s.calm.Mounted 1 → s.gCwdBlock < 65536 → ∀ (now : UInt64) (path : List UInt8)
      (q : Nat × Nat), s.NamesSlot now path q →
        ∀ t, kUnlink now path s = some (.ok, t) → UnlinksOnly s q t := by
  intro always
  obtain ⟨s, isS⟩ : ∃ s, s = (runCalls linkedFile).after blankVolume := ⟨_, rfl⟩
  obtain ⟨I, resting⟩ := linkedFile_resting
  rw [← isS] at resting
  have ready := resting.tracks.ready
  have names : s.NamesSlot 3 [108] (1, 1) :=
    @namesSlot_of_value _ _ _ _ DirEntry.typeSymlink ready.host (isS ▸ (by decide +kernel)) (by decide)
  have mounted : s.calm.Mounted 1 := (calm_of_host ready.host).symm ▸ ready.toMounted
  have result : (kUnlink 3 [108] s).map Prod.fst = some .ok := isS ▸ (by decide +kernel)
  have only := always s mounted (isS ▸ (by decide +kernel)) 3 [108] (1, 1) names _ (Prog.run_after result)
  have name : (((kUnlink 3 [108]).after s).dirent (1, 1)).name0 = 108 := isS ▸ (by decide +kernel)
  rw [only.deleted] at name
  cases name

end Examples

end PennOs.Fat

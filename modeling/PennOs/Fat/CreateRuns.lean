import PennOs.Fat.ImageFiles
import PennOs.Fat.PathRuns

set_option autoImplicit false

/- The calls that make new entries: what they do to the image of a volume. -/
namespace PennOs.Fat

open Image (Promises Keeps KeepsAll Sinks Welcome)

/-- Between two calls a mounted volume shows an image with nothing loose. -/
structure Resting (promised : Promises) (s : Fs) (I : Image) : Prop where
  tracks : Tracks s I
  good : I.Good promised
  idle : ∀ c, ¬ I.loose c
  cwd : I.dirs s.gCwdBlock

/-- `J` is `I` with the entry `e` in the slot `p` of the directory `d`, the first free one of its
block. -/
structure Adds (I : Image) (d : Nat) (e : DirEntry) (p : Nat × Nat) (J : Image) : Prop where
  here : I.dirs d
  spot : I.vacancy (I.chain d) = some p ∨ (I.vacancy (I.chain d) = none ∧ p.1 ∉ I.chain d)
  slots : J.slots = I.slots
  dirs : ∀ d', I.dirs d' → J.dirs d'
  front : ∀ d', I.dirs d' → I.chain d' <+: J.chain d'
  place : J.At d p
  written : J.slot p.1 p.2 = e
  dead : ∀ d', I.At d' p → (I.slot p.1 p.2).live = false
  before : ∀ j < p.2, (J.slot p.1 j).name0 ≠ 0
  others : ∀ d' q, I.At d' q → q ≠ p → J.slot q.1 q.2 = I.slot q.1 q.2
  old : ∀ d' q, I.dirs d' → J.At d' q → (J.slot q.1 q.2).live = true → q ≠ p → I.At d' q
  finds : I.Dense → e.name0 ≠ 0 → ∀ d', I.dirs d' → ∀ name,
    J.find name (J.chain d') = I.find name (I.chain d') ∨
      (J.find name (J.chain d') = some p ∧ d' = d)

/-- The entry `e` for something loose went into the slot `p` of the directory `d`. -/
structure Entered (promised : Promises) (gone : Nat × Nat → Prop) (lost : Nat → Prop) (s : Fs)
    (I : Image) (d : Nat) (e : DirEntry) (p : Nat × Nat) (t : Fs) (J : Image) : Prop where
  tracks : Tracks t J
  good : J.Good promised
  loose : ∀ c, J.loose c ↔ I.loose c ∧ c ≠ e.firstBlock.toNat
  keeps : Keeps gone lost I J
  tables : SameTables s t
  written : J.slot p.1 p.2 = e
  held : e.live = true → J.Holds d p e.firstBlock.toNat
  slots : J.slots = I.slots
  unused : ∀ d c, ¬ I.Holds d p c
  others : ∀ d' q, I.At d' q → q ≠ p → J.slot q.1 q.2 = I.slot q.1 q.2
  rows : ∀ h, ¬ I.dirs h → ∀ b ∈ I.chain h, J.slot b = I.slot b
  finds : I.Dense → e.name0 ≠ 0 → ∀ d', I.dirs d' → ∀ name,
    J.find name (J.chain d') = I.find name (I.chain d') ∨
      (J.find name (J.chain d') = some p ∧ d' = d)
  adds : (∀ d', I.dirs d' → J.dirs d') → Adds I d e p J

variable {promised : Promises} {gone : Nat × Nat → Prop} {lost : Nat → Prop} {s t : Fs}
  {I J : Image} {b c d : Nat} {p : Nat × Nat} {e : DirEntry}

section Adding

/-- The image after an entry was added, with other things changed outside the directories. -/
theorem Added.adds {K : Image} (added : Added s t I J d e p) (good : J.Wf) (wf : I.Wf)
    (slots : K.slots = J.slots) (dirs : ∀ d', J.dirs d' → K.dirs d') (chain : K.chain = J.chain)
    (rows : ∀ d', J.dirs d' → ∀ b ∈ J.chain d', K.slot b = (J.setSlot p e).slot b) :
    Adds I d e p K := by
  have grows := added.grows
  have here := added.place.dir
  have row := rows d here p.1 added.place.block
  have dead : (J.slot p.1 p.2).live = false := DirEntry.live_of_reusable added.free
  constructor
  · exact grows.dirs ▸ here
  · exact added.spot
  · exact slots.trans grows.slots
  · intro d' there
    exact dirs d' (grows.dirs.symm ▸ there)
  · intro d' _
    exact chain ▸ grows.front d'
  · exact ⟨dirs d here, chain ▸ added.place.block, slots ▸ added.place.index⟩
  · rw [row]
    exact J.setSlot_self p e
  · intro d' place
    rw [← grows.slot d' p place]
    exact dead
  · intro j less
    have other : (p.1, j) ≠ p := fun same => absurd (congrArg Prod.snd same) (by simp only; omega)
    have same : (J.setSlot p e).slot p.1 j = J.slot p.1 j := J.setSlot_ne (q := (p.1, j)) e other
    rw [row, same]
    exact DirEntry.name0_of_not_reusable (added.first j less)
  · intro d' q place apart
    have member := (grows.front d').subset place.block
    rw [rows d' (grows.dirs.symm ▸ place.dir) q.1 member, J.setSlot_ne e apart]
    exact grows.slot d' q place
  · intro d' q there place live apart
    have there' : J.dirs d' := grows.dirs.symm ▸ there
    have member : q.1 ∈ J.chain d' := chain ▸ place.block
    rw [rows d' there' q.1 member, J.setSlot_ne e apart] at live
    exact grows.empty d' q ⟨there', member, slots ▸ place.index⟩ live
  · intro dense visible d' there name
    have there' : J.dirs d' := grows.dirs.symm ▸ there
    have same : K.find name (J.chain d') = (J.setSlot p e).find name (J.chain d') :=
      find_congr slots fun b member i _ => congrFun (rows d' there' b member) i
    rw [chain, same]
    exact added.find_eq good wf dense visible there

/-- An entry for something loose is added to a directory. -/
theorem attach_run (gone : Nat × Nat → Prop) (lost : Nat → Prop) (tracks : Tracks s I)
    (good : I.Good promised) (here : I.dirs d) (isLoose : I.loose e.firstBlock.toNat)
    (proper : e.firstBlock.toNat ≠ 1)
    (kind : e.live = true → (e.type = DirEntry.typeDirectory ↔ I.dirs e.firstBlock.toNat))
    (agrees : I.dirs e.firstBlock.toNat → I.parent e.firstBlock.toNat = d)
    (welcome : Welcome promised I d e)
    (sinks : e.live = false → Sinks gone lost I e.firstBlock.toNat) :
    addDirentToDir d e s = some (.nospace, s) ∨ ∃ t J p,
      addDirentToDir d e s = some (.ok, t) ∧ Entered promised gone lost s I d e p t J := by
  rcases addDirentToDir_run tracks good.wf here e with full | ⟨t, J, p, run, added⟩
  · exact .inl full
  right
  have grows := added.grows
  have grown := grows.good promised good
  have wf := grown.wf
  have dead : (J.slot p.1 p.2).live = false := DirEntry.live_of_reusable added.free
  have shape := J.enter_shape p e
  have slots := J.enter_slot p e
  refine ⟨t, J.enter p e, p, run, ?_⟩
  constructor
  · exact added.tracks.ghost shape.1 shape.2.1 (fun _ _ => by rw [shape.2.2]; rfl)
      fun _ _ _ _ _ => by rw [slots]
  · refine grown.enter added.place dead (fun i less => DirEntry.name0_of_not_reusable (added.first i less))
      ((grows.loose _).mpr isLoose) proper ?_ ?_ (welcome.grows grows)
    · rw [grows.dirs]
      exact kind
    · intro there
      rw [grows.dirs] at there
      rw [grows.parent good.wf there]
      exact agrees there
  · intro c
    rw [J.enter_loose]
    exact and_congr_left fun _ => grows.loose c
  · exact (Keeps.grows grows).trans
      (.enter wf added.place dead fun gives => (sinks gives).grows good.wf grows)
  · exact added.tables
  · rw [slots]
    exact J.setSlot_self p e
  · exact Image.enter_holds wf added.place dead
  · exact shape.2.1.trans grows.slots
  · intro d c link
    have live := (grows.holds.mpr link).live
    rw [dead] at live
    cases live
  · intro d' q place apart
    rw [slots, J.setSlot_ne e apart]
    exact grows.slot d' q place
  · intro h file b member
    have apart : b ≠ p.1 := by
      rintro rfl
      obtain rfl := wf.apart (grows.kept h p.1 member) added.place.block
      exact file here
    rw [slots, Image.setSlot, J.setRow_ne _ apart, grows.rows h b member]
  · intro dense visible d' there name
    have same : (J.enter p e).find name (J.chain d') = (J.setSlot p e).find name (J.chain d') :=
      find_congr shape.2.1 fun b _ i _ => congrFun (congrFun slots b) i
    rw [J.enter_chain, same]
    exact added.find_eq wf good.wf dense visible there
  · intro kept
    exact added.adds wf good.wf shape.2.1 (fun d' there => kept d' (grows.dirs ▸ there))
      (J.enter_chain p e) fun _ _ b _ => congrFun slots b

end Adding

section Names

theorem cNameFrom_packName {name : List UInt8} (short : name.length < 32) (noNul : 0 ∉ name)
    {index fuel : Nat} (rest : index + fuel = 32) :
    DirEntry.cNameFrom (DirEntry.packName name) index fuel = name.drop index := by
  induction fuel generalizing index with
  | zero => rw [DirEntry.cNameFrom, List.drop_eq_nil_of_le (by omega)]
  | succ fuel ih =>
      have inside : index < 32 := by omega
      rw [DirEntry.cNameFrom, dif_pos inside]
      by_cases within : index < name.length
      · have here : DirEntry.packName name ⟨index, inside⟩ = name[index] := by
          have low : index < 31 := by omega
          simp only [DirEntry.packName, low, ↓reduceIte, List.getElem?_eq_getElem within,
            Option.getD_some]
        have visible : name[index] ≠ 0 := fun zero => noNul (zero ▸ List.getElem_mem within)
        rw [here, if_neg visible, ih (by omega)]
        exact (List.drop_eq_getElem_cons within).symm
      · have past : DirEntry.packName name ⟨index, inside⟩ = 0 := by
          have nothing : name[index]? = none := List.getElem?_eq_none (by omega)
          simp only [DirEntry.packName, nothing, Option.getD_none, ite_self]
        rw [past, if_pos rfl, List.drop_eq_nil_of_le (by omega)]

theorem cName_packName {name : List UInt8} (short : name.length < 32) (noNul : 0 ∉ name)
    (named : e.name = DirEntry.packName name) : e.cName = name := by
  rw [DirEntry.cName, named, cNameFrom_packName short noNul (by omega), List.drop_zero]

/-- The name keeps the promises as the name of a new entry of the directory. -/
structure NameWelcome (promised : Promises) (I : Image) (d : Nat) (name : List UInt8) : Prop where
  live : promised.lossless → DirEntry.packName name 0 ≠ 0 ∧ DirEntry.packName name 0 ≠ 1 ∧
    DirEntry.packName name 0 ≠ 2
  dense : promised.dense ∨ promised.distinct → DirEntry.packName name 0 ≠ 0
  fresh : promised.distinct → ∀ q, I.At d q → (I.slot q.1 q.2).live = true →
    (I.slot q.1 q.2).cName ≠ name

theorem NameWelcome.entry {name : List UInt8} (welcome : NameWelcome promised I d name)
    (short : name.length < 32) (noNul : 0 ∉ name) (named : e.name = DirEntry.packName name) :
    Welcome promised I d e where
  live asked := by
    rw [DirEntry.live_iff, DirEntry.name0, named]
    exact welcome.live asked
  dense asked := by
    rw [DirEntry.name0, named]
    exact welcome.dense asked
  fresh asked := by
    rw [cName_packName short noNul named]
    exact welcome.fresh asked

theorem mem_getFilenameFromPath {path : List UInt8} {c : UInt8}
    (member : c ∈ getFilenameFromPath path) : c ∈ path := by
  induction path with
  | nil => exact member
  | cons first rest ih =>
      rw [getFilenameFromPath] at member
      split at member
      · exact List.mem_cons_of_mem _ (ih member)
      · split at member
        · exact List.mem_cons_of_mem _ member
        · exact member

end Names

section Making

theorem NameWelcome.congr {name : List UInt8} (welcome : NameWelcome promised I d name)
    (same : ∀ q, J.At d q → I.At d q ∧ J.slot q.1 q.2 = I.slot q.1 q.2) :
    NameWelcome promised J d name where
  live := welcome.live
  dense := welcome.dense
  fresh asked q place alive := by
    obtain ⟨old, row⟩ := same q place
    rw [row] at alive ⊢
    exact welcome.fresh asked q old alive

theorem NameWelcome.alloc {name : List UInt8} (welcome : NameWelcome promised I d name)
    (wf : I.Wf) (free : I.fat b = fatFree) : NameWelcome promised (I.alloc b) d name :=
  welcome.congr fun _ place =>
    ⟨⟨place.dir, Image.alloc_chain wf free place.dir ▸ place.block, place.index⟩, rfl⟩

theorem NameWelcome.setRow {name : List UInt8} {row : Nat → DirEntry}
    (welcome : NameWelcome promised I d name) (out : I.Outside b) :
    NameWelcome promised (I.setRow b row) d name := by
  refine welcome.congr fun q place => ⟨⟨place.dir, place.block, place.index⟩, ?_⟩
  have apart : q.1 ≠ b := fun same => out d place.dir (same ▸ place.block)
  rw [I.setRow_ne row apart]

theorem goodName {name : List UInt8} (good : ¬ badName name = true) :
    name.length < 32 ∧ name ≠ dot ∧ name ≠ dotDot := by
  simp only [badName, Bool.or_eq_true, beq_iff_eq, decide_eq_true_eq, not_or] at good
  exact ⟨by omega, good.1.2, good.2⟩

/-- A block was taken, and nothing names it yet. -/
structure Taken (promised : Promises) (s : Fs) (I : Image) (b : Nat) : Prop where
  tracks : Tracks s I
  good : I.Good promised
  loose : ∀ c, I.loose c ↔ c = b
  cwd : I.dirs s.gCwdBlock
  low : 2 ≤ b
  single : I.chain b = [b]
  file : ¬ I.dirs b

namespace Taken

variable (taken : Taken promised s I b)

include taken

theorem high : b < I.blocks :=
  (taken.good.wf.inside b b (by rw [taken.single]; exact List.mem_singleton_self b)).2.1

theorem bound : b < 65536 := by
  have inside := taken.high
  have bounds := taken.tracks.blocks_bounds
  omega

theorem first (named : e.firstBlock = UInt16.ofNat b) : e.firstBlock.toNat = b := by
  rw [named, UInt16.toNat_ofNat', Nat.mod_eq_of_lt taken.bound]

theorem outside : I.Outside b :=
  taken.good.wf.outside_of_file taken.file (by rw [taken.single]; exact List.mem_singleton_self b)

/-- The block is given back. -/
theorem giveBack : fatSet b fatFree s = some ((), s.setFat b fatFree) ∧
    freeBlockChain b s = some ((), s.setFat b fatFree) ∧
    Resting promised (s.setFat b fatFree) (I.free b) := by
  obtain ⟨run, tracks⟩ := freeBlockChain_tracks taken.tracks taken.good.wf
    (h := b) (by rw [taken.single]; exact List.cons_ne_nil b [])
  rw [taken.single] at run tracks
  have low := taken.low
  refine ⟨fatSet_ready taken.tracks.ready _ (taken.tracks.inside taken.high), run, tracks,
    taken.good.free ((taken.loose b).mpr rfl) taken.file, ?_, taken.cwd⟩
  rintro c ⟨loose, apart⟩
  exact apart ((taken.loose c).mp loose)

/-- The block becomes a file with an entry of its own. -/
theorem attach (here : I.dirs d) (named : e.firstBlock = UInt16.ofNat b)
    (file : e.type ≠ DirEntry.typeDirectory) (welcome : Welcome promised I d e) :
    addDirentToDir d e s = some (.nospace, s) ∨ ∃ t J p,
      addDirentToDir d e s = some (.ok, t) ∧ Resting promised t J ∧
        Entered promised (fun _ => False) (fun _ => False) s I d e p t J ∧
        (e.live = true → J.FileAt p b) := by
  have first := taken.first named
  have low := taken.low
  have isLoose : I.loose e.firstBlock.toNat := (taken.loose _).mpr first
  have notDir : ¬ I.dirs e.firstBlock.toNat := fun there => taken.file (first ▸ there)
  rcases attach_run (fun _ => False) (fun _ => False) taken.tracks taken.good here isLoose (by omega)
      (fun _ => ⟨fun isDir => absurd isDir file, fun there => absurd there notDir⟩)
      (fun there => absurd there notDir) welcome
      (fun _ => taken.good.wf.sinks_of_file notDir) with full | ⟨t, J, p, run, entered⟩
  · exact .inl full
  · right
    refine ⟨t, J, p, run, ⟨entered.tracks, entered.good, fun c loose => ?_, ?_⟩, entered,
      fun live => ?_⟩
    · obtain ⟨old, apart⟩ := (entered.loose c).mp loose
      exact apart (((taken.loose c).mp old).trans first.symm)
    · rw [entered.tables.cwd]
      exact entered.keeps.dirs _ taken.cwd id
    · have link := entered.held live
      have kind := (entered.good.wf.target d p _ link).2
      rw [entered.written] at kind
      exact ⟨d, first ▸ link, fun there => file (kind.mpr (first ▸ there))⟩

end Taken

theorem take_run (resting : Resting promised s I) :
    allocateFreeBlock s = some (none, s) ∨ ∃ b, I.fat b = fatFree ∧
      allocateFreeBlock s = some (some b, s.setFat b fatEoc) ∧
      Taken promised (s.setFat b fatEoc) (I.alloc b) b := by
  rcases allocate_tracks resting.tracks with full | ⟨b, low, high, free, run, tracks⟩
  · exact .inl full
  · have wf := resting.good.wf
    refine .inr ⟨b, free, run, tracks, resting.good.alloc low high free, fun c => ?_, resting.cwd,
      low, Function.update_self _ _ _, fun there => ?_⟩
    · exact ⟨fun loose => loose.resolve_left (resting.idle c), .inr⟩
    · exact wf.dirHead b there (wf.chain_nil_of_free free)

/-- An entry was added, the tables were left alone, and all files and directories are where they
were. -/
def Extended (promised : Promises) (s : Fs) (I : Image) (d : Nat) (e : DirEntry) (t : Fs) : Prop :=
  ∃ J p, Resting promised t J ∧ KeepsAll I J ∧ SameTables s t ∧ Adds I d e p J

/-- The call left the tables alone, and all files and directories are where they were. -/
def Calm (promised : Promises) (s : Fs) (I : Image) (t : Fs) : Prop :=
  ∃ J, Resting promised t J ∧ KeepsAll I J ∧ SameTables s t

theorem Resting.calm (resting : Resting promised s I) : Calm promised s I s :=
  ⟨I, resting, .refl I, .refl s⟩

end Making

section Calls

/-- A live entry gets new data; its name, type and first block stay. -/
theorem Resting.setMeta_run (resting : Resting promised s I) (low : 1 ≤ p.1) (high : p.1 < I.blocks)
    (index : p.2 < I.slots) (live : (I.slot p.1 p.2).live = true)
    (name : e.cName = (I.slot p.1 p.2).cName) (type : e.type = (I.slot p.1 p.2).type)
    (first : e.firstBlock = (I.slot p.1 p.2).firstBlock) :
    writeDirent p.1 p.2 e s = some (.ok, s.putDirent p e) ∧
      Resting promised (s.putDirent p e) (I.setSlot p e) ∧ KeepsAll I (I.setSlot p e) :=
  ⟨writeDirent_run resting.tracks low high index e,
    ⟨resting.tracks.putDirent low high e, resting.good.setMeta live name type first, resting.idle,
      resting.cwd⟩, .setMeta name first⟩

theorem Resting.setMetaAt (resting : Resting promised s I) (place : I.At d p)
    (live : (I.slot p.1 p.2).live = true) (name : e.cName = (I.slot p.1 p.2).cName)
    (type : e.type = (I.slot p.1 p.2).type) (first : e.firstBlock = (I.slot p.1 p.2).firstBlock) :
    Prog.Ensures (writeDirent p.1 p.2 e) s fun _ t => Calm promised s I t := by
  obtain ⟨low, high, _⟩ := resting.good.wf.inside d p.1 place.block
  obtain ⟨run, rests, keeps⟩ := resting.setMeta_run low high place.index live name type first
  exact .of_run run ⟨_, rests, keeps, .putDirent s p e⟩

/-- Directories that were not looked up by name keep their entries. -/
theorem Resting.refuse (resting : Resting promised s I) (here : I.dirs d) (e : DirEntry) :
    Prog.Ensures (writeDirent d (-1) e) s fun _ t => Calm promised s I t := by
  obtain ⟨low, high⟩ := resting.good.wf.dir_inside here
  exact .of_run (writeDirent_negative resting.tracks low high e) resting.calm

/-- The block for a new entry is given back. -/
theorem Taken.undo (taken : Taken promised t J b) (keeps : KeepsAll I J) (tables : SameTables s t) :
    Calm promised s I (t.setFat b fatFree) :=
  ⟨J.free b, taken.giveBack.2.2, keeps.trans (.free taken.file), tables.trans (.setFat t b fatFree)⟩

/-- What `k_open` and `k_touch` do for a new regular file. -/
theorem newFile_run (resting : Resting promised s I) (now : UInt64) (here : I.dirs d)
    {name : List UInt8} (short : name.length < 32) (noNul : 0 ∉ name)
    (welcome : NameWelcome promised I d name) :
    allocateFreeBlock s = some (none, s) ∨ ∃ b t, I.fat b = fatFree ∧
      allocateFreeBlock s = some (some b, t) ∧
      ((addDirentToDir d (newFileEntry now name b) t = some (.nospace, t) ∧
          Prog.Ensures (fatSet b fatFree) t fun _ u => Calm promised s I u) ∨
        ∃ u J p, addDirentToDir d (newFileEntry now name b) t = some (.ok, u) ∧
          Resting promised u J ∧ KeepsAll I J ∧ SameTables s u ∧
          Entered promised (fun _ => False) (fun _ => False) t (I.alloc b) d
            (newFileEntry now name b) p u J ∧
          ((newFileEntry now name b).live = true → J.FileAt p b)) := by
  have wf := resting.good.wf
  rcases take_run resting with full | ⟨b, free, took, taken⟩
  · exact .inl full
  refine .inr ⟨b, _, free, took, ?_⟩
  have welcome' := (welcome.alloc wf free).entry short noNul (e := newFileEntry now name b) rfl
  have regular : DirEntry.typeRegular ≠ DirEntry.typeDirectory := by decide
  have keeps : KeepsAll I (I.alloc b) := .alloc wf free
  have tables := SameTables.setFat s b fatEoc
  rcases taken.attach here rfl regular welcome' with full | ⟨t, J, p, added, rests, entered, file⟩
  · exact .inl ⟨full, .of_run taken.giveBack.1 (taken.undo keeps tables)⟩
  · exact .inr ⟨t, J, p, added, rests, keeps.trans entered.keeps, tables.trans entered.tables,
      entered, file⟩

/-- `k_touch` makes a file where the path ends at a missing entry. -/
theorem kTouch_run (resting : Resting promised s I) (now : UInt64) (path : CStr)
    (welcome : ∀ err d, resolvePath now path.bytes s = some ((err, unresolvedIn d), s) → I.dirs d →
      (getFilenameFromPath path.bytes).length < 32 →
      NameWelcome promised I d (getFilenameFromPath path.bytes)) :
    Prog.Ensures (kTouch now path.bytes) s fun _ t => Calm promised s I t := by
  have stays : Calm promised s I s := resting.calm
  unfold kTouch
  refine .get (.ite (fun _ => .pure stays) fun _ => .ite (fun _ => .pure stays) fun _ => ?_)
  obtain ⟨err, r, run, resolved⟩ :=
    resolvePath_run resting.tracks resting.good.wf resting.cwd now path.bytes
  refine .step run (.ite (fun _ => .pure stays) fun _ => ?_)
  cases resolved with
  | slash => exact .ite (fun _ => .ite (fun _ => .pure stays) fun no => absurd rfl no) nofun
  | dir name d parent mtime here above at_ =>
      exact .ite (fun _ => .ite (fun _ => .pure stays) fun _ => resting.refuse here _) nofun
  | entry d p place live named before =>
      exact .ite (fun _ => .ite nofun fun _ => resting.setMetaAt place live rfl rfl rfl) nofun
  | missing err d here kind =>
      refine .ite nofun fun _ => .ite (fun _ => .pure stays) fun _ => ?_
      refine .ite (fun _ => .pure stays) fun short => .ite (fun _ => .pure stays) fun _ => ?_
      have noNul := fun member => path.noNul (mem_getFilenameFromPath member)
      rcases newFile_run resting now here (by omega) noNul (welcome err d run here (by omega)) with
        full | ⟨b, t, _, took, ⟨full, back⟩ | ⟨u, J, p, added, rests, keeps, tables, _⟩⟩
      · exact .step full (.pure stays)
      · exact .step took (.step full (back.bind fun _ _ calm => .pure calm))
      · exact .step took (.step added (.pure ⟨J, rests, keeps, tables⟩))
  | nothing err =>
      exact .ite nofun fun _ => .ite (fun _ => .pure stays) fun no => absurd (.inl rfl) no

/-- `k_chmod` on a path that is found. -/
theorem kChmod_run (resting : Resting promised s I) (now : UInt64) (path : List UInt8)
    (newPerm : UInt8) :
    Prog.Ensures (kChmod now path newPerm) s fun _ t => Calm promised s I t := by
  have stays : Calm promised s I s := resting.calm
  unfold kChmod
  refine .get (.ite (fun _ => .pure stays) fun _ => .ite (fun _ => .pure stays) fun _ => ?_)
  refine .ite (fun _ => .pure stays) fun _ => ?_
  obtain ⟨err, r, run, resolved⟩ :=
    resolvePath_run resting.tracks resting.good.wf resting.cwd now path
  refine .step run (.ite (fun _ => .pure stays) fun _ => .ite (fun _ => .pure stays) fun found => ?_)
  cases resolved with
  | slash => exact absurd (.inr rfl) found
  | dir name d parent mtime here above at_ => exact resting.refuse here _
  | entry d p place live named before => exact resting.setMetaAt place live rfl rfl rfl
  | missing err d here kind => exact absurd (.inl rfl) found
  | nothing err => exact absurd (.inl rfl) found

/-- The new block gets contents. -/
theorem Taken.write (taken : Taken promised s I b) (buf : Buffer) :
    writeBlock buf b s = some (true, s.putBlock b buf) ∧
      Taken promised (s.putBlock b buf) (I.setRow b fun i => direntAt buf i) b := by
  have low := taken.low
  refine ⟨writeBlock_run taken.tracks.ready.toMounted buf b,
    taken.tracks.putBlock (by omega) taken.high fun _ _ => rfl,
    taken.good.setRow taken.outside _, taken.loose, taken.cwd, low, taken.single, taken.file⟩

/-- `k_symlink` makes a link where the path ends at a missing entry. -/
theorem kSymlink_run (resting : Resting promised s I) (now : UInt64) (target : List UInt8)
    (linkpath : CStr)
    (welcome : ∀ err d, resolvePathNoFollow now linkpath.bytes s = some ((err, unresolvedIn d), s) →
      I.dirs d → (getFilenameFromPath linkpath.bytes).length < 32 →
      NameWelcome promised I d (getFilenameFromPath linkpath.bytes)) :
    Prog.Ensures (kSymlink now target linkpath.bytes) s fun _ t => Calm promised s I t := by
  have stays : Calm promised s I s := resting.calm
  have wf := resting.good.wf
  unfold kSymlink
  refine .get (.ite (fun _ => .pure stays) fun _ => .ite (fun _ => .pure stays) fun _ => ?_)
  obtain ⟨err, r, run, resolved⟩ :=
    resolvePathInternal_run resting.tracks wf resting.cwd now false symlinkLevels linkpath.bytes
  refine .step run (.ite (fun _ => .pure stays) fun _ => .ite (fun _ => .pure stays) fun missing => ?_)
  refine .ite (fun _ => .pure stays) fun used => .ite (fun _ => .pure stays) fun good => ?_
  refine .ite (fun _ => .pure stays) fun _ => ?_
  cases resolved with
  | slash => exact absurd rfl missing
  | dir name d parent mtime here above at_ => exact absurd rfl missing
  | entry d p place live named before => exact absurd rfl missing
  | nothing err => exact absurd (.inl rfl) used
  | missing err d here kind =>
      rcases take_run resting with full | ⟨b, free, took, taken⟩
      · exact .step full (.pure stays)
      obtain ⟨wrote, written⟩ := taken.write (targetBuffer target)
      refine .step took (.step (malloc_run taken.tracks.ready.host) (.ite nofun fun _ => ?_))
      refine .step wrote (.ite nofun fun _ => .step (hostOk_run written.tracks.ready.host) ?_)
      have noNul := fun member => linkpath.noNul (mem_getFilenameFromPath member)
      have keeps : KeepsAll I ((I.alloc b).setRow b fun i => direntAt (targetBuffer target) i) :=
        (Keeps.alloc wf free).trans (.setRow taken.outside)
      have tables := (SameTables.setFat s b fatEoc).trans
        (.putBlock (s.setFat b fatEoc) b (targetBuffer target))
      have named : NameWelcome promised
          ((I.alloc b).setRow b fun i => direntAt (targetBuffer target) i) d
          (getFilenameFromPath linkpath.bytes) :=
        ((welcome err d run here (goodName good).1).alloc wf free).setRow taken.outside
      have welcome' := named.entry (goodName good).1 noNul
        (e := symlinkEntry now (getFilenameFromPath linkpath.bytes) target b) rfl
      have link : DirEntry.typeSymlink ≠ DirEntry.typeDirectory := by decide
      rcases written.attach here rfl link welcome' with full | ⟨t, J, p, added, rests, entered, _⟩
      · exact .step full (.step written.giveBack.2.1 (.pure (written.undo keeps tables)))
      · exact .step added (.pure ⟨J, rests, keeps.trans entered.keeps, tables.trans entered.tables⟩)

/-- The rows of a new directory. -/
def newDirRow (now : UInt64) (dirBlock parentDirBlock i : Nat) : DirEntry :=
  if i = 1 then newDirEntry now dotDot parentDirBlock
  else if i = 0 then newDirEntry now dot dirBlock else .zero

theorem newDirBuffer_rows (now : UInt64) (dirBlock parentDirBlock i : Nat) :
    direntAt (newDirBuffer now dirBlock parentDirBlock) i = newDirRow now dirBlock parentDirBlock i := by
  rw [newDirBuffer, direntAt_setDirentAt, direntAt_setDirentAt, direntAt_zeroBuffer, newDirRow]

theorem newDirRow_pair (now : UInt64) {o : Nat} (bound : b < 65536) :
    DotPair (newDirRow now b o) b := by
  have self : (newDirRow now b o) 0 = newDirEntry now dot b := rfl
  have up : (newDirRow now b o) 1 = newDirEntry now dotDot o := rfl
  constructor
  · rw [self]
    exact cName_packName (by decide) (by decide) rfl
  · rw [self]
    rfl
  · rw [self]
    show (UInt16.ofNat b).toNat = b
    rw [UInt16.toNat_ofNat', Nat.mod_eq_of_lt bound]
  · rw [up]
    exact cName_packName (by decide) (by decide) rfl
  · rw [up]
    rfl

/-- The entry for a new directory is written before its first block is. -/
theorem Taken.attachDir (taken : Taken promised s I b) (now : UInt64) (here : I.dirs d)
    {name : List UInt8} (welcome : Welcome promised I d (newDirEntry now name b)) :
    addDirentToDir d (newDirEntry now name b) s = some (.nospace, s) ∨ ∃ t,
      addDirentToDir d (newDirEntry now name b) s = some (.ok, t) ∧ t.Ready ∧
        writeBlock (newDirBuffer now b d) b t = some (true, t.putBlock b (newDirBuffer now b d)) ∧
        Extended promised s I d (newDirEntry now name b) (t.putBlock b (newDirBuffer now b d)) := by
  have wf := taken.good.wf
  have low := taken.low
  have first : (newDirEntry now name b).firstBlock.toNat = b := taken.first rfl
  rcases addDirentToDir_run taken.tracks wf here (newDirEntry now name b) with
    full | ⟨t, J₀, p, run, added⟩
  · exact .inl full
  right
  have grows := added.grows
  have grown := grows.good promised taken.good
  have apart : b ≠ d := by
    rintro rfl
    exact taken.file here
  have single : J₀.chain b = [b] :=
    (grows.chain b apart (by rw [taken.single]; exact List.cons_ne_nil b [])).trans taken.single
  have file : ¬ J₀.dirs b := by
    rw [grows.dirs]
    exact taken.file
  have loose : ∀ c, J₀.loose c ↔ c = b := fun c => (grows.loose c).trans (taken.loose c)
  have out : J₀.Outside b :=
    grown.wf.outside_of_file file (by rw [single]; exact List.mem_singleton_self b)
  have off : p.1 ≠ b := fun same => out d added.place.dir (same ▸ added.place.block)
  have dead : (J₀.slot p.1 p.2).live = false := DirEntry.live_of_reusable added.free
  have tables := added.tables.trans (.putBlock t b (newDirBuffer now b d))
  have wrote : Tracks (t.putBlock b (newDirBuffer now b d))
      ((J₀.setSlot p (newDirEntry now name b)).setRow b (newDirRow now b d)) := by
    refine added.tracks.putBlock (by omega) ?_ fun i _ => newDirBuffer_rows now b d i
    exact grows.blocks ▸ taken.high
  refine ⟨t, run, added.tracks.ready, writeBlock_run added.tracks.ready.toMounted _ _, ?_⟩
  have before : ∀ i < p.2, (J₀.slot p.1 i).name0 ≠ 0 :=
    fun i less => DirEntry.name0_of_not_reusable (added.first i less)
  have away : ∀ d', J₀.dirs d' → ∀ x ∈ J₀.chain d', x ≠ b :=
    fun d' there x member same => out d' there (same ▸ member)
  have cwd : J₀.dirs (t.putBlock b (newDirBuffer now b d)).gCwdBlock := by
    rw [tables.cwd, grows.dirs]
    exact taken.cwd
  cases live : (newDirEntry now name b).live with
  | true =>
      have up : (newDirRow now b d 1).firstBlock.toNat = d := by
        have inside := wf.dir_inside here
        have bounds := taken.tracks.blocks_bounds
        show (UInt16.ofNat d).toNat = d
        rw [UInt16.toNat_ofNat', Nat.mod_eq_of_lt (by omega)]
      have empty : ∀ i < J₀.slots, 2 ≤ i → (newDirRow now b d i).live = false := by
        intro i _ high
        rw [newDirRow, if_neg (by omega), if_neg (by omega)]
        rfl
      have made := grown.makeDir ((loose b).mpr rfl) file single added.place.dir
        (newDirRow_pair now taken.bound) up empty
      have rowP : (J₀.makeDir b (newDirRow now b d)).slot p.1 = J₀.slot p.1 := J₀.setRow_ne _ off
      have rowB : (J₀.makeDir b (newDirRow now b d)).slot b = newDirRow now b d := J₀.setRow_self b _
      have held : ((J₀.makeDir b (newDirRow now b d)).add p (newDirEntry now name b)).Good promised := by
        refine made.add ⟨.inl added.place.dir, added.place.block, added.place.index⟩
          (by rw [rowP]; exact dead) live (by rw [first]; exact (loose b).mpr rfl)
          ⟨fun _ => .inr first, fun _ => rfl⟩ (by omega) (fun _ => ?_) (fun asked q place _ alive => ?_)
          (by rw [rowP]; exact before)
        · rw [first, Image.parent, rowB]
          exact up
        · have block : q.1 ≠ b := fun same => out d added.place.dir (same ▸ place.block)
          have rowQ : (J₀.makeDir b (newDirRow now b d)).slot q.1 = J₀.slot q.1 :=
            J₀.setRow_ne _ block
          rw [rowQ] at alive ⊢
          have old := grows.empty d q ⟨added.place.dir, place.block, place.index⟩ alive
          have same := grows.slot d q old
          rw [same] at alive ⊢
          exact welcome.fresh asked q old alive
      refine ⟨(J₀.makeDir b (newDirRow now b d)).add p (newDirEntry now name b), p,
        ⟨wrote.ghost rfl rfl (fun _ _ => rfl) fun x _ _ i _ => ?_, held, ?_, .inl cwd⟩,
        (Keeps.grows grows).trans ((Keeps.makeDir grown.wf ((loose b).mpr rfl) file single).trans
          (.add (by rw [rowP]; exact dead))), tables,
        added.adds grown.wf wf rfl (fun d' there => .inl there) rfl fun d' there x member => ?_⟩
      · show Function.update (Function.update J₀.slot b (newDirRow now b d)) p.1
          (Function.update ((J₀.makeDir b (newDirRow now b d)).slot p.1) p.2 _) x i =
          Function.update (Function.update J₀.slot p.1 _) b (newDirRow now b d) x i
        rw [rowP, Function.update_comm off]
      · rintro c ⟨old, other⟩
        exact other (((loose c).mp old).trans first.symm)
      · show Function.update (Function.update J₀.slot b (newDirRow now b d)) p.1
          (Function.update ((J₀.makeDir b (newDirRow now b d)).slot p.1) p.2 _) x =
          Function.update J₀.slot p.1 _ x
        rw [rowP, Function.update_comm off.symm, Function.update_of_ne (away d' there x member)]
  | false =>
      have loses : ¬ promised.lossless := fun asked => by
        rw [welcome.live asked] at live
        cases live
      have blanked := grown.blank added.place dead live loses welcome.dense
      have written := blanked.setRow (b := b) out (newDirRow now b d)
      refine ⟨((J₀.setSlot p (newDirEntry now name b)).setRow b (newDirRow now b d)).orphan b, p,
        ⟨wrote.ghost rfl rfl (fun _ _ => rfl) fun _ _ _ _ _ => rfl,
          written.orphan ((loose b).mpr rfl) (by omega) loses, ?_, cwd, fun below => ?_⟩,
        (Keeps.grows grows).trans ((Keeps.setSlot (.inr dead)).trans ((Keeps.setRow ?_).trans
          (.orphan (written.wf.sinks_of_file file)))), tables,
        added.adds grown.wf wf rfl (fun d' there => ?_) rfl fun d' there x member =>
          (J₀.setSlot p (newDirEntry now name b)).setRow_ne _ (away d' there x member)⟩
      · rintro c ⟨old, other⟩
        exact other ((loose c).mp old)
      · exact file (written.wf.tree.below_dir below cwd)
      · exact out
      · exact ⟨there, fun below => file (written.wf.tree.below_dir below there)⟩

/-- `k_mkdir` makes a directory where the path ends at a missing entry. -/
theorem kMkdir_run (resting : Resting promised s I) (now : UInt64) (path : CStr)
    (welcome : ∀ err d, resolvePath now path.bytes s = some ((err, unresolvedIn d), s) → I.dirs d →
      (getFilenameFromPath path.bytes).length < 32 →
      NameWelcome promised I d (getFilenameFromPath path.bytes)) :
    Prog.Ensures (kMkdir now path.bytes) s fun _ t => Calm promised s I t := by
  have stays : Calm promised s I s := resting.calm
  have wf := resting.good.wf
  unfold kMkdir
  refine .get (.ite (fun _ => .pure stays) fun _ => .ite (fun _ => .pure stays) fun _ => ?_)
  obtain ⟨err, r, run, resolved⟩ :=
    resolvePath_run resting.tracks wf resting.cwd now path.bytes
  refine .step run (.ite (fun _ => .pure stays) fun _ => .ite (fun _ => .pure stays) fun missing => ?_)
  refine .ite (fun _ => .pure stays) fun used => .ite (fun _ => .pure stays) fun good => ?_
  cases resolved with
  | slash => exact absurd rfl missing
  | dir name d parent mtime here above at_ => exact absurd rfl missing
  | entry d p place live named before => exact absurd rfl missing
  | nothing err => exact absurd (.inl rfl) used
  | missing err d here kind =>
      rcases take_run resting with full | ⟨b, free, took, taken⟩
      · exact .step full (.pure stays)
      have noNul := fun member => path.noNul (mem_getFilenameFromPath member)
      have keeps : KeepsAll I (I.alloc b) := .alloc wf free
      have tables := SameTables.setFat s b fatEoc
      have welcome' := ((welcome err d run here (goodName good).1).alloc wf free).entry
        (goodName good).1 noNul
        (e := newDirEntry now (getFilenameFromPath path.bytes) b) rfl
      refine .step took ?_
      rcases taken.attachDir now here welcome' with full
        | ⟨t, added, ready, wrote, J, p, rests, kept, same, _⟩
      · exact .step full (.step taken.giveBack.1 (.pure (taken.undo keeps tables)))
      · refine .step added (.step (malloc_run ready.host) (.ite nofun fun _ => .step wrote ?_))
        exact .ite (fun _ => .pure ⟨J, rests, keeps.trans kept, tables.trans same⟩) fun no => absurd rfl no

end Calls

end PennOs.Fat

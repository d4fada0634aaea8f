import PennOs.Fat.FilledFiles
import PennOs.Fat.HostFrames
import PennOs.Pennfat.CatFiles

set_option autoImplicit false

/- The command `cp` from the host and back to it. -/
namespace PennOs.Pennfat

open PennOs.Fat
open PennOs.Fat.Fs
open PennOs.Shell (ascii)
open Image (Promises)

/-- The session after a host file changed that is not the image. -/
def Session.saves (s : Session) (fs : Fs) (name : List UInt8) (f : HostFile) : Session :=
  { s with fs := { fs with hostFiles := Function.update fs.hostFiles name (some f) } }

variable {promised : Promises} {s : Session} {u : Fs} {J : Image} {b d fd : Nat} {p : Nat × Nat}
  {nodes : List Nat}
  {path data name : List UInt8} {src dest : CStr} {f g : HostFile}

section HostFiles

theorem text_length (f : HostFile) : f.text.length = f.size := by
  simp only [HostFile.text, List.length_map, List.length_range]

theorem append_text (f : HostFile) (data : List UInt8) : (f.append data).text = f.text ++ data := by
  apply List.ext_getElem?
  intro j
  simp only [HostFile.text, HostFile.append, List.getElem?_append, List.length_map, List.length_range,
    List.getElem?_map]
  by_cases below : j < f.size
  · have inside : j < f.size + data.length := by omega
    simp [below, inside]
  · by_cases inside : j < f.size + data.length
    · have here : j - f.size < data.length := by omega
      simp [below, inside, here]
    · have past : data.length ≤ j - f.size := by omega
      simp [below, inside, past]

theorem hostFile_other (aside : u.imageName ≠ some name) : u.hostFile name = u.hostFiles name := by
  rw [Fs.hostFile, if_neg aside]

theorem saveHostFile_other (aside : u.imageName ≠ some name) (f : HostFile) :
    u.saveHostFile name f = { u with hostFiles := Function.update u.hostFiles name (some f) } := by
  rw [Fs.saveHostFile, if_neg aside]

end HostFiles

section FromHost

theorem bufferOf_take {bytes : List UInt8} {count : Nat} (within : count ≤ bytes.length) :
    (List.range count).map (bufferOf bytes) = bytes.take count := by
  apply List.ext_getElem?
  intro j
  rw [List.getElem?_map, List.getElem?_take]
  by_cases inside : j < count
  · have here : j < bytes.length := by omega
    simp [inside, bufferOf, here]
  · simp [inside]

theorem fromHostLoop_end (dest : CStr) (fd : Nat) {pos : Nat} (here : s.fs.hostFile src.bytes = some f)
    (ends : f.text.drop pos = []) (fuel : Nat) :
    fromHostLoop src dest fd (fuel + 1) pos s = some (.ok, s) := by
  rw [fromHostLoop, Prog.get_bind, here]
  simp only [Option.getD_some, ends, List.take_nil, ↓reduceIte, Prog.pure_run]

theorem fromHostLoop_turn {pos : Nat} {buffer : List UInt8} (here : s.fs.hostFile src.bytes = some f)
    (more : buffer ≠ []) (isBuffer : buffer = (f.text.drop pos).take bufSize)
    (run : kWrite (s.clock s.ticks) fd (bufferOf buffer) buffer.length s.fs =
    some (.ok buffer.length, u)) (fuel : Nat) :
    fromHostLoop src dest fd (fuel + 1) pos s =
      fromHostLoop src dest fd fuel (pos + buffer.length) (s.shows u 1 [] []) := by
  have turn := timed_run (p := fun now => kWrite now fd (bufferOf buffer) buffer.length) run
  rw [fromHostLoop, Prog.get_bind, here]
  simp only [Option.getD_some, ← isBuffer, more, ↓reduceIte]
  refine (Prog.bind_of_run turn _).trans ?_
  simp only [ne_eq, not_true_eq_false, ↓reduceIte]

theorem fromHostLoop_short {pos : Nat} {buffer : List UInt8} {count : Nat}
    (here : s.fs.hostFile src.bytes = some f) (more : buffer ≠ [])
    (isBuffer : buffer = (f.text.drop pos).take bufSize)
    (run : kWrite (s.clock s.ticks) fd (bufferOf buffer) buffer.length s.fs = some (.ok count, u))
    (part : count ≠ buffer.length) (fuel : Nat) :
    fromHostLoop src dest fd (fuel + 1) pos s =
      some (.internal, s.shows u 1 [] (quoting "cp: error writing to '" dest)) := by
  have turn := timed_run (p := fun now => kWrite now fd (bufferOf buffer) buffer.length) run
  have complaint := printErr_run (s := s.shows u 1 [] []) (quoting "cp: error writing to '" dest)
  rw [fromHostLoop, Prog.get_bind, here]
  simp only [Option.getD_some, ← isBuffer, more, ↓reduceIte]
  refine (Prog.bind_of_run turn _).trans ?_
  simp only [part, ne_eq, not_false_eq_true, ↓reduceIte]
  refine (Prog.bind_of_run complaint _).trans ?_
  simp only [Prog.pure_run, shows_fs, shows_shows, List.nil_append, Nat.add_zero]

/-- The loop over a host file fills the block, and fails if it is too small. -/
theorem fromHostLoop_run (src dest : CStr) {content : List UInt8} {fuel pos : Nat}
    (here : s.fs.hostFile src.bytes = some f) (aside : s.fs.imageName ≠ some src.bytes)
    (isContent : content = f.text.drop pos)
    (stores : Stores promised path data s.fs J d p b) (writer : Writer s.fs J p data.length)
    (enough : s.fs.gBlockSize - data.length < fuel) :
    ∃ t K ticks err, fromHostLoop src dest 0 fuel pos s =
        some (if data.length + content.length ≤ s.fs.gBlockSize then .ok else .internal,
          s.shows t ticks [] err) ∧
      t.gBlockSize = s.fs.gBlockSize ∧ SameHost s.fs t ∧
      Writer t K p (data ++ content.take (s.fs.gBlockSize - data.length)).length ∧
      Stores promised path (data ++ content.take (s.fs.gBlockSize - data.length)) t K d p b := by
  induction fuel generalizing s data content pos J with
  | zero => omega
  | succ fuel ih =>
      by_cases more : content = []
      · have ends := fromHostLoop_end dest 0 here (isContent.symm.trans more) fuel
        refine ⟨s.fs, J, 0, [], ?_, rfl, ⟨rfl, rfl⟩, ?_, ?_⟩
        · rw [ends, more, List.length_nil, if_pos (show data.length + 0 ≤ s.fs.gBlockSize from stores.fits)]
          simp [Session.shows]
        · simpa [more] using writer
        · simpa [more] using stores
      have fits := stores.fits
      have positive : 0 < content.length := List.length_pos_iff.mpr more
      obtain ⟨buffer, isBuffer⟩ : ∃ buffer, buffer = content.take bufSize := ⟨_, rfl⟩
      have short : buffer.length = min bufSize content.length := by rw [isBuffer, List.length_take]
      rw [bufSize] at short
      have some_ : buffer ≠ [] := List.length_pos_iff.mp (by omega)
      have isBuffer' : buffer = (f.text.drop pos).take bufSize := isContent ▸ isBuffer
      obtain ⟨count, isCount⟩ : ∃ count, count = min buffer.length (s.fs.gBlockSize - data.length) := ⟨_, rfl⟩
      obtain ⟨t, K, run, size, writer', stores'⟩ :=
        stores.append writer (s.clock s.ticks) (bufferOf buffer) buffer.length isCount
      have sameHost : SameHost s.fs t := kWrite_sameHost 0 (bufferOf buffer) buffer.length _ _ _ run
      rw [bufferOf_take (by omega)] at writer' stores'
      by_cases all : count = buffer.length
      · -- the whole chunk went in, and the loop goes on behind it
        have whole : buffer.take count = buffer := by rw [all, List.take_length]
        rw [whole] at writer' stores'
        have split_ : content = buffer ++ content.drop bufSize := by rw [isBuffer, List.take_append_drop]
        have left : (content.drop bufSize).length = content.length - buffer.length := by
          rw [List.length_drop, bufSize]
          omega
        have rest_ : content.drop bufSize = f.text.drop (pos + buffer.length) := by
          rw [← List.drop_drop, ← isContent]
          conv_rhs => rw [split_]
          rw [List.drop_left]
        have here' : t.hostFile src.bytes = some f := (sameHost.hostFile aside).trans here
        obtain ⟨v, M, ticks, err, rest, size', sameHost', writer'', stores''⟩ := ih (s := s.shows t 1 [] [])
          here' (sameHost.imageName ▸ aside) rest_ stores' writer' (by
            rw [shows_fs, size, List.length_append]
            omega)
        have taken : data ++ buffer ++ (content.drop bufSize).take (t.gBlockSize - (data ++ buffer).length) =
            data ++ content.take (s.fs.gBlockSize - data.length) := by
          have inside : buffer.length ≤ s.fs.gBlockSize - data.length := by omega
          have room : s.fs.gBlockSize -
            (data ++ buffer).length = s.fs.gBlockSize - data.length - buffer.length := by
            rw [List.length_append]
            omega
          rw [size, room, List.append_assoc]
          conv_rhs => rw [split_, List.take_append, List.take_of_length_le inside]
        rw [shows_fs, taken] at writer'' stores''
        have total : ((data ++ buffer).length + (content.drop bufSize).length ≤ t.gBlockSize) =
            (data.length + content.length ≤ s.fs.gBlockSize) := by
          rw [List.length_append, left, size]
          exact propext (by omega)
        rw [shows_fs, shows_shows] at rest
        simp only [total] at rest
        refine ⟨v, M, 1 + ticks, [] ++ err, ?_, size'.trans size, trans_of SameHost sameHost sameHost',
          writer'', stores''⟩
        rw [fromHostLoop_turn here some_ isBuffer' (all ▸ run) fuel]
        exact rest
      · have taken : buffer.take count = content.take (s.fs.gBlockSize - data.length) := by
          have inside : min count bufSize = s.fs.gBlockSize - data.length := by
            rw [bufSize]
            omega
          rw [isBuffer, List.take_take, inside]
        rw [taken] at writer' stores'
        have large : ¬ data.length + content.length ≤ s.fs.gBlockSize := by omega
        refine ⟨t, K, 1, quoting "cp: error writing to '" dest, ?_, size, sameHost, writer', stores'⟩
        rw [if_neg large]
        exact fromHostLoop_short here some_ isBuffer' run all fuel

/-- A host file comes to a file of one block, as far as the block goes. -/
theorem cpFromHost_run {now : UInt64} (here : s.fs.hostFile src.bytes = some f) (named : src.bytes ≠ [])
    (aside : s.fs.imageName ≠ some src.bytes)
    (opened : kOpen (s.clock s.ticks) dest.bytes rewriteMode s.fs =
    some (.ok 0, u.openedAs (J.foundAt d p) rewriteMode 0))
    (fresh : Fresh promised now dest.bytes u J d p b) (reads : canRead (J.slot p.1 p.2).perm = true) :
    ∃ t K ticks err, cpFromHost src dest s =
        some (if f.size ≤ u.gBlockSize then .ok else .internal, s.shows t ticks [] err) ∧
      t.NoneOpen ∧ SameHost s.fs t ∧ Stores promised dest.bytes (f.text.take u.gBlockSize) t K d p b ∧
      (K.slot p.1 p.2).size.toNat = (f.text.take u.gBlockSize).length := by
  have opened' := timed_run (p := fun now => kOpen now dest.bytes (oCreate ||| oWronly)) opened
  have sameHost : SameHost s.fs (u.openedAs (J.foundAt d p) rewriteMode 0) := kOpen_sameHost _ _ _ opened
  have opens : s.fs.opens false src.bytes = true := by simp [Fs.opens, here, named]
  have bounds := fresh.rests.tracks.ready.toMounted.blockSize_bounds
  have enough : u.gBlockSize - 0 < copyFuel := by
    rw [copyFuel]
    omega
  obtain ⟨v, M, ticks, err, loop, size, sameHost', writer, stores⟩ :=
    fromHostLoop_run (s := s.shows (u.openedAs (J.foundAt d p) rewriteMode 0) 1 [] []) src dest
      ((sameHost.hostFile aside).trans here) (sameHost.imageName ▸ aside) (List.drop_zero (l := f.text)).symm
      (fresh.stores reads) fresh.writer enough
  have same : (s.shows (u.openedAs (J.foundAt d p) rewriteMode 0) 1 [] []).fs.gBlockSize = u.gBlockSize := rfl
  simp only [same, List.length_nil, Nat.zero_add, Nat.sub_zero, List.nil_append, shows_shows,
    text_length] at loop size writer stores
  obtain ⟨t, K, close, _, idle, stores', length⟩ := stores.close writer
  have sameHost'' : SameHost v t := kClose_sameHost 0 _ _ _ close
  have closed := call_run (s := s.shows v (1 + ticks) [] err) (p := kClose 0) close
  refine ⟨t, K, 1 + ticks, err, ?_, idle,
    trans_of SameHost (trans_of SameHost sameHost sameHost') sameHost'', stores', length⟩
  rw [cpFromHost, Prog.get_bind, opens]
  simp only [Bool.not_true, Bool.false_eq_true, ↓reduceIte]
  refine (Prog.bind_of_run opened' _).trans ((Prog.bind_of_run loop _).trans ?_)
  refine (Prog.bind_of_run closed _).trans ?_
  simp only [Prog.pure_run, shows_shows, Nat.add_zero, List.append_nil]

end FromHost

section ToHost

theorem toHostLoop_turn (src : CStr) {bytes : List UInt8}
    (read : kRead fd bufSize s.fs = some (.ok bytes, u)) (more : bytes ≠ [])
    (aside : u.imageName ≠ some dest.bytes) (there : u.hostFiles dest.bytes = some f) (fuel : Nat) :
    toHostLoop src dest fd (fuel + 1) s =
      toHostLoop src dest fd fuel (s.saves u dest.bytes (f.append bytes)) := by
  have saved := saveHostFile_other aside (f.append bytes)
  have old := (hostFile_other aside).trans there
  rw [toHostLoop]
  refine (Prog.bind_of_run (call_run read) _).trans ?_
  simp only [more, ↓reduceIte, hostAppend, Prog.modify_bind, Session.saves, Session.shows, List.append_nil,
    Nat.add_zero, old, Option.getD_some, saved]

theorem toHostLoop_end (read : kRead fd bufSize s.fs = some (.ok [], u)) (fuel : Nat) :
    toHostLoop src dest fd (fuel + 1) s = some (.ok, s.shows u 0 [] []) := by
  rw [toHostLoop]
  exact (Prog.bind_of_run (call_run read) _).trans rfl

/-- The loop over a file saves what is left of it. -/
theorem toHostLoop_run (src dest : CStr) {left fuel : Nat} (reading : Reading s.fs fd nodes left)
    (enough : left < fuel)
    (aside : s.fs.imageName ≠ some dest.bytes) (there : s.fs.hostFiles dest.bytes = some f) :
    ∃ g, toHostLoop src dest fd fuel s = some (.ok, s.saves (s.fs.seekBy fd left) dest.bytes g) ∧
      g.text = f.text ++ s.fs.bytesFrom nodes (s.fs.offsetOf fd) left := by
  induction fuel generalizing s left f with
  | zero => omega
  | succ fuel ih =>
      obtain ⟨count, isCount⟩ : ∃ count, count = min bufSize left := ⟨_, rfl⟩
      obtain ⟨reads, offset, later⟩ := reading.turn isCount
      rw [bufSize] at isCount
      by_cases ends : left = 0
      · have none_ : count = 0 := by omega
        have same : Function.update (s.fs.seekBy fd 0).hostFiles dest.bytes
          (some f) = (s.fs.seekBy fd 0).hostFiles := by
          rw [← there]
          exact Function.update_eq_self _ _
        rw [none_] at reads
        refine ⟨f, ?_, ?_⟩
        · rw [toHostLoop_end reads, ends, Session.saves, same]
          simp [Session.shows]
        · simp [ends, bytesFrom]
      · have more : s.fs.bytesFrom nodes (s.fs.offsetOf fd) count ≠ [] := by
          intro empty
          have length := congrArg List.length empty
          simp only [bytesFrom, List.length_map, List.length_range, List.length_nil] at length
          omega
        have whole := bytesFrom_add s.fs nodes (s.fs.offsetOf fd) count (left - count)
        have total : count + (left - count) = left := by omega
        rw [total] at whole
        have turn := toHostLoop_turn src reads more aside there fuel
        obtain ⟨v, isV⟩ : ∃ v, v = s.saves (s.fs.seekBy fd count) dest.bytes
            (f.append (s.fs.bytesFrom nodes (s.fs.offsetOf fd) count)) := ⟨_, rfl⟩
        have there' : v.fs.hostFiles dest.bytes =
          some (f.append (s.fs.bytesFrom nodes (s.fs.offsetOf fd) count)) := by
          rw [isV]
          exact Function.update_self _ _ _
        have reading' : Reading v.fs fd nodes (left - count) := by
          rw [isV]
          exact later.withHostFiles _
        obtain ⟨g, rest, text⟩ := ih reading' (by omega) (by rw [isV]; exact aside) there'
        refine ⟨g, ?_, ?_⟩
        · have seeks := seekBy_add s.fs fd count (left - count)
          rw [total] at seeks
          rw [turn, ← isV, rest, isV, ← seeks]
          simp only [Session.saves, seekBy, setFd, Function.update_idem]
        · have offset' : v.fs.offsetOf fd = s.fs.offsetOf fd + count := by
            rw [isV]
            exact offset
          have bytes : v.fs.bytesFrom nodes (s.fs.offsetOf fd + count) (left - count) =
              s.fs.bytesFrom nodes (s.fs.offsetOf fd + count) (left - count) := by
            rw [isV]
            rfl
          rw [text, append_text, offset', bytes, whole, List.append_assoc]

/-- The steps of `cp` for a destination on the host. -/
theorem cpToHost_done {v w t : Session} {res ret : PennFatErr}
    (opened : timed (fun now => kOpen now src.bytes oRdonly) s = some (.ok fd, v))
    (writable : v.writable dest.bytes = true)
    (loop : toHostLoop src dest fd copyFuel
    { v with fs := v.fs.saveHostFile dest.bytes .empty } = some (ret, w))
    (closed : call (kClose fd) w = some (res, t)) : cpToHost src dest s = some (ret, t) := by
  unfold cpToHost
  refine (Prog.bind_of_run opened _).trans ?_
  simp only [Prog.get_bind, writable, Bool.not_true, Bool.false_eq_true, ↓reduceIte, Prog.modify_bind]
  refine (Prog.bind_of_run loop _).trans ?_
  exact (Prog.bind_of_run closed _).trans rfl

/-- A file that is stored comes to the host as it is. -/
theorem cpToHost_run (stores : Stores promised src.bytes data s.fs J d p b) (idle : s.fs.NoneOpen)
    (size : (J.slot p.1 p.2).size.toNat = data.length) (writable : s.writable dest.bytes = true)
    (aside : s.fs.imageName ≠ some dest.bytes) :
    ∃ t saved, cpToHost src dest s = some (.ok, t) ∧ t.fs.imageName = s.fs.imageName ∧
      t.fs.hostFiles = Function.update s.fs.hostFiles dest.bytes (some saved) ∧ saved.text = data := by
  have resting := stores.rests
  have tracks := resting.tracks
  have run := stores.leads (s.clock s.ticks)
  have opens : Opens .ok (J.foundAt d p) :=
    ⟨rfl, rfl, fun isDir => stores.file ((resting.good.wf.target d p b stores.link).2.mp isDir), stores.reads⟩
  have opened := timed_run (p := fun now => kOpen now src.bytes oRdonly) (kOpen_reads resting idle run opens)
  have first : (J.foundAt d p).entry.firstBlock.toNat = b := stores.link.first
  have used : J.chain b ≠ [] := by
    rw [stores.single]
    exact List.cons_ne_nil b []
  have chain : s.fs.Chain (J.foundAt d p).entry.firstBlock.toNat [b] :=
    first.symm ▸ stores.single ▸ tracks.chain resting.good.wf used
  have bounds := tracks.ready.toMounted.blockSize_bounds
  have fits := stores.fits
  have left : readable (J.foundAt d p).entry.size.toNat (s.fs.capacity [b]) = data.length := by
    have size' : (J.foundAt d p).entry.size.toNat = data.length := size
    have room : s.fs.capacity [b] = s.fs.gBlockSize := Nat.one_mul _
    rw [readable, size', room]
    split
    · omega
    · omega
  have reading := reading_openedAs tracks.ready tracks.volume.fits chain
  rw [left] at reading
  obtain ⟨v, isV⟩ : ∃ v, v = { s.shows (s.fs.openedAs (J.foundAt d p) readMode 0) 1 [] [] with
      fs := (s.fs.openedAs (J.foundAt d p) readMode 0).saveHostFile dest.bytes .empty } := ⟨_, rfl⟩
  have fs : v.fs = { s.fs.openedAs (J.foundAt d p) readMode 0 with
      hostFiles := Function.update s.fs.hostFiles dest.bytes (some .empty) } := by
    rw [isV]
    exact saveHostFile_other (u := s.fs.openedAs (J.foundAt d p) readMode 0) aside .empty
  have made : v.fs.hostFiles dest.bytes = some .empty := by
    rw [fs]
    exact Function.update_self _ _ _
  have enough : data.length < copyFuel := by
    rw [copyFuel]
    omega
  have reading' : Reading v.fs 0 [b] data.length := by
    rw [fs]
    exact reading.withHostFiles _
  have bytes : v.fs.bytesFrom [b] (v.fs.offsetOf 0) data.length = data := by
    rw [fs]
    exact stores.bytes
  obtain ⟨g, loop, text⟩ := toHostLoop_run src dest reading' enough (by rw [fs]; exact aside) made
  rw [bytes] at text
  obtain ⟨w, isW⟩ : ∃ w, w = v.saves (v.fs.seekBy 0 data.length) dest.bytes g := ⟨_, rfl⟩
  obtain ⟨host, isHost⟩ : ∃ host, host = Function.update s.fs.hostFiles dest.bytes (some g) := ⟨_, rfl⟩
  have sought : w.fs = Fs.openedAs { s.fs with hostFiles := host } (J.foundAt d p) readMode
    (UInt32.ofNat data.length) := by
    have saved : w.fs = { (s.fs.openedAs (J.foundAt d p) readMode 0).seekBy 0 data.length with
      hostFiles := host } := by
      rw [isW, Session.saves, fs, isHost]
      simp only [seekBy, setFd, Function.update_idem]
    rw [saved, seekBy_openedAs]
    rfl
  have closed := call_run (s := w) (p := kClose 0)
    (sought ▸ kClose_stored (resting.withHostFiles host) stores.link (UInt32.ofNat data.length))
  refine ⟨_, g, cpToHost_done opened writable (isV ▸ isW ▸ loop) closed, rfl, isHost, ?_⟩
  rw [text]
  rfl

end ToHost

section RoundTrip

/-- Through a volume a host file comes back as far as one block goes: after a run of calls that take no
slot of an open file and left none open, `cp -h SRC PATH` fails if the file is larger than a block, and
in any case `cp PATH -h DEST` then makes DEST the first block of it. -/
theorem host_round_trip (hostFiles : List UInt8 → Option HostFile) (fsName : List UInt8) (config : Int)
    (s : Session) (host : HostSound .keepOpen hostFiles fsName) (low : 0 ≤ config) (high : config ≤ 4)
    (run : Run BindSound (freshVolume hostFiles fsName config) s.fs)
    (mounted : s.fs.gMounted = true) (closed : ∀ fd < maxFd, (s.fs.gFdTable fd).inUse = false)
    (flag src path dest : CStr) (isFlag : flag.bytes = ascii "-h") (proper : path.bytes ≠ ascii "-h")
    (content : HostFile) (here : s.fs.hostFile src.bytes = some content) (named : src.bytes ≠ [])
    (aside : s.fs.imageName ≠ some src.bytes) (aside' : s.fs.imageName ≠ some dest.bytes)
    (writable : s.writable dest.bytes = true)
    (sound : BindSound s.fs (.openFile (s.clock s.ticks) path rewriteMode))
    (opens : ∃ fd t, kOpen (s.clock s.ticks) path.bytes rewriteMode s.fs = some (.ok fd, t))
    (reads : Readable s.fs (s.clock s.ticks) path.bytes) :
    ∃ t u saved, cp [flag, src, path] s =
      some (if content.size ≤ s.fs.gBlockSize then .ok else .internal, t) ∧
      cp [path, flag, dest] t = some (.ok, u) ∧ saved.text = content.text.take s.fs.gBlockSize ∧
      u.fs.imageName = s.fs.imageName ∧
      u.fs.hostFiles = Function.update s.fs.hostFiles dest.bytes (some saved) := by
  obtain ⟨binding, accounted⟩ := binding_run host low high run
  cases binding with
  | stored stored => exact absurd mounted (by rw [stored.unmounted]; decide)
  | @mounted I resting =>
      obtain ⟨fd, t, opened⟩ := opens
      obtain ⟨u, J, d, p, b, rfl, rfl, fresh, size, readable⟩ :=
        kOpen_fresh resting trivial (accounted.noneOpen closed) path
          (fun err d run here short => (sound.1 mounted rfl).welcome resting run here short) opened
      obtain ⟨v, K, ticks, err, into, idle, sameHost, stores, length⟩ :=
        cpFromHost_run here named aside opened fresh (readable reads)
      obtain ⟨w, saved, back, name, files, text⟩ :=
        cpToHost_run (s := s.shows v ticks [] err) stores idle length
        writable (sameHost.imageName ▸ aside')
      rw [size] at into text
      have first : cpArgs [flag, src, path] = .ok (.fromHost src path) := by
        simp only [cpArgs, isFlag, ↓reduceIte]
      have second : cpArgs [path, flag, dest] = .ok (.toHost path dest) := by
        simp only [cpArgs, proper, isFlag, ↓reduceIte]
      refine ⟨s.shows v ticks [] err, w, saved, ?_, ?_, text, name.trans sameHost.imageName, ?_⟩
      · rw [cp, first]
        exact into
      · rw [cp, second]
        exact back
      · rw [files, shows_fs, sameHost.hostFiles]

/-- 300 bytes that are no image. -/
def hostContent : HostFile := ⟨fun _ => 9, 300⟩

/-- A host with the file "h". -/
def hostWith : List UInt8 → Option HostFile := Function.update (fun _ => none) [104] (some hostContent)

theorem hostWith_sound : HostSound .keepOpen hostWith imageA.bytes := by
  refine ⟨by decide, fun name image _ found => ?_⟩
  by_cases here : name = [104]
  · subst here
    obtain rfl : hostContent = image := Option.some.inj found
    rintro ⟨config, fatBlocks, formatted⟩
    have small := formatted.config_lt
    rw [← formatted.config_eq] at small
    exact absurd small (by decide)
  · rw [hostWith, Function.update_of_ne here] at found
    cases found

/-- A volume with blocks of 256 bytes. -/
def hosted : Session :=
  { started [] with
    fs := freshVolume hostWith imageA.bytes 0
    ticks := 1
    writable := fun _ => true }

theorem hosted_file : hosted.fs.hostFile [104] = some hostContent := by
  show (freshVolume hostWith imageA.bytes 0).hostFile [104] = some hostContent
  rw [freshVolume_eq (by decide) (by decide) (by decide)]
  rfl

theorem hosted_sound : BindSound hosted.fs (.openFile 1 (.literal [97]) rewriteMode) := by
  refine ⟨fun _ _ err d _ _ _ => ⟨False.elim, fun _ => by decide, False.elim⟩, fun _ => ⟨?_, ?_⟩⟩
  · intro top
    exact absurd top (by decide)
  · rintro _ r d p _ _ ⟨i, low, used, _⟩
    have none : ∀ i < maxSystemFiles, (hosted.fs.gSysfileTable i).inUse = false := by decide +kernel
    rw [none i low] at used
    cases used

theorem host_round_trip_hosted : ∃ t u saved,
    cp [.literal [45, 104], .literal [104], .literal [97]] hosted = some (.internal, t) ∧
      cp [.literal [97], .literal [45, 104], .literal [100]] t = some (.ok, u) ∧
      saved.text = List.replicate 256 9 ∧ u.fs.imageName = some imageA.bytes ∧
      u.fs.hostFiles = Function.update hosted.fs.hostFiles [100] (some saved) := by
  have result : (kOpen 1 [97] rewriteMode hosted.fs).map (fun x => x.1.toOption) = some (some 0) := by
    decide +kernel
  have missing : ∀ r, resolvePath 1 [97] hosted.fs = some ((.ok, r), hosted.fs) → r.found = true →
      canRead r.entry.perm = true := by
    intro r run found
    have absent : (resolvePath 1 [97] hosted.fs).map (·.1.2.found) = some false := by decide +kernel
    rw [run] at absent
    have not : r.found = false := Option.some.inj absent
    rw [not] at found
    cases found
  have name : hosted.fs.imageName = some imageA.bytes := by decide +kernel
  have content : hostContent.text = List.replicate 300 9 := by decide +kernel
  have size : hosted.fs.gBlockSize = 256 := by decide +kernel
  obtain ⟨t, u, saved, into, back, text, same, files⟩ := host_round_trip hostWith imageA.bytes 0 hosted
    hostWith_sound (by decide) (by decide) .refl rfl (by decide +kernel) (.literal [45, 104]) (.literal [104])
    (.literal [97]) (.literal [100]) (by decide) (by decide) hostContent hosted_file (by decide)
    (by rw [name]; decide) (by rw [name]; decide) rfl hosted_sound ⟨0, _, Prog.run_ok result⟩ missing
  have large : ¬ hostContent.size ≤ hosted.fs.gBlockSize := by
    rw [size]
    decide
  rw [if_neg large] at into
  refine ⟨t, u, saved, into, back, ?_, same.trans name, files⟩
  have cut : min 256 300 = 256 := by decide
  rw [text, content, size, List.take_replicate, cut]

end RoundTrip

end PennOs.Pennfat

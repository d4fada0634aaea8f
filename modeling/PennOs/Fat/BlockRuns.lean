import PennOs.Fat.BlockBytes

set_option autoImplicit false

/- What the block and entry transfers do on a mounted volume when the host carries out
every call. -/
namespace PennOs.Fat

open Fs

variable {s : Fs} {fatBlocks : Nat}

theorem hostCall_run (host : s.host = []) : hostCall s = some (.done, s) := by
  simp only [hostCall, host]

theorem hostOk_run (host : s.host = []) : hostOk s = some (true, s) := by
  rw [hostOk, Prog.bind_of_run (hostCall_run host)]
  rfl

theorem malloc_run (host : s.host = []) : malloc s = some (true, s) := hostOk_run host

theorem Fs.Mounted.gFsFd_ne (mounted : s.Mounted fatBlocks) : s.gFsFd ≠ none := by
  intro closed
  have opened := mounted.descriptor
  simp [fdOpen, closed] at opened

theorem writeBlock_run (mounted : s.Mounted fatBlocks) (buf : Buffer) (b : Nat) :
    writeBlock buf b s = some (true, s.putBlock b buf) := by
  simp only [writeBlock, Prog.get_bind, mounted.gFsFd_ne, ↓reduceIte]
  rw [Prog.bind_of_run (hostOk_run mounted.host)]
  simp only [Bool.not_true, Bool.false_eq_true, ↓reduceIte]
  rw [Prog.bind_of_run (hostCall_run mounted.host)]
  simp only [mounted.descriptor, Bool.not_true, Bool.false_eq_true, ↓reduceIte, Prog.modify_bind]
  exact hostOk_run mounted.host

theorem fatGet_run (mounted : s.Mounted fatBlocks) {i : Nat}
    (inside : i < fatBlocks * s.gBlockSize / 2) : fatGet i s = some (s.fat i, s) := by
  simp only [fatGet, mounted.fatMapped inside, ↓reduceIte]

theorem fatSet_run (mounted : s.Mounted fatBlocks) {i : Nat} (v : Nat)
    (inside : i < fatBlocks * s.gBlockSize / 2) : fatSet i v s = some ((), s.setFat i v) := by
  simp only [fatSet, mounted.fatMapped inside, ↓reduceIte]

theorem readBlock_stored (mounted : s.Mounted fatBlocks) {b : Nat}
    (stored : s.blockOffset b + s.gBlockSize ≤ s.fileSize) :
    readBlock b s = some (some (s.block b), s) := by
  simp only [readBlock, Prog.get_bind, mounted.gFsFd_ne, ↓reduceIte]
  rw [Prog.bind_of_run (hostOk_run mounted.host)]
  simp only [Bool.not_true, Bool.false_eq_true, ↓reduceIte]
  rw [Prog.bind_of_run (hostOk_run mounted.host)]
  simp only [Bool.not_true, Bool.false_eq_true, ↓reduceIte, mounted.descriptor, stored, and_self,
    Prog.pure_run]

section Ready

variable (ready : s.Ready)

include ready

theorem fatGet_ready {i : Nat} (inside : i < s.fatEntries) : fatGet i s = some (s.fat i, s) :=
  fatGet_run ready.toMounted (ready.fatEntries_bounds.2.2 ▸ inside)

theorem fatSet_ready {i : Nat} (v : Nat) (inside : i < s.fatEntries) :
    fatSet i v s = some ((), s.setFat i v) :=
  fatSet_run ready.toMounted v (ready.fatEntries_bounds.2.2 ▸ inside)

theorem readBlock_run {b : Nat} (inside : b < s.fatEntries) :
    readBlock b s = some (some (s.block b), s) :=
  readBlock_stored ready.toMounted (ready.block_end inside)

/-- Reading past the image fails and changes nothing. -/
theorem readBlock_unchanged (b : Nat) : ∃ result, readBlock b s = some (result, s) := by
  simp only [readBlock, Prog.get_bind, ready.gFsFd_ne, ↓reduceIte]
  rw [Prog.bind_of_run (hostOk_run ready.host)]
  simp only [Bool.not_true, Bool.false_eq_true, ↓reduceIte]
  rw [Prog.bind_of_run (hostOk_run ready.host)]
  simp only [Bool.not_true, Bool.false_eq_true, ↓reduceIte, ready.descriptor, true_and]
  split
  · exact ⟨_, rfl⟩
  · exact ⟨_, rfl⟩

end Ready

end PennOs.Fat

import PennOs.Fat.Volumes

set_option autoImplicit false

/- The calls of the file system as steps, and runs of them in any order. -/
namespace PennOs.Fat

/-- A call with its arguments. `now` is what the clock shows during the call. -/
inductive Call where
  | mkfs (fsName : CStr) (blocksInFat config : Int)
  | mount (fsName : CStr)
  | unmount
  | openFile (now : UInt64) (path : CStr) (mode : UInt32)
  | read (fd n : Int)
  | write (now : UInt64) (fd : Int) (buf : Buffer) (n : Int)
  | close (fd : Int)
  | lseek (fd offset whence : Int)
  | unlink (now : UInt64) (path : CStr)
  | touch (now : UInt64) (path : CStr)
  | chmod (now : UInt64) (path : CStr) (perm : UInt8)
  | chdir (now : UInt64) (path : CStr)
  | symlink (now : UInt64) (target linkpath : CStr)
  | mkdir (now : UInt64) (path : CStr)
  | rmdir (now : UInt64) (path : CStr)
  | rename (now : UInt64) (oldpath newpath : CStr)

/-- What the caller does with the result is not part of the step. -/
def ignore {α : Type} (call : FsM α) : FsM Unit := do
  let _ ← call
  return ()

namespace Call

def exec : Call → FsM Unit
  | mkfs fsName blocksInFat config => ignore (kMkfs fsName.bytes blocksInFat config)
  | mount fsName => ignore (kMount fsName.bytes)
  | unmount => ignore kUnmount
  | openFile now path mode => ignore (kOpen now path.bytes mode)
  | read fd n => ignore (kRead fd n)
  | write now fd buf n => ignore (kWrite now fd buf n)
  | close fd => ignore (kClose fd)
  | lseek fd offset whence => ignore (kLseek fd offset whence)
  | unlink now path => ignore (kUnlink now path.bytes)
  | touch now path => ignore (kTouch now path.bytes)
  | chmod now path perm => ignore (kChmod now path.bytes perm)
  | chdir now path => ignore (kChdir now path.bytes)
  | symlink now target linkpath => ignore (kSymlink now target.bytes linkpath.bytes)
  | mkdir now path => ignore (kMkdir now path.bytes)
  | rmdir now path => ignore (kRmdir now path.bytes)
  | rename now oldpath newpath => ignore (kRename now oldpath.bytes newpath.bytes)

end Call

theorem ignore_inv {α : Type} {call : FsM α} {s t : Fs} {result : Unit}
    (run : ignore call s = some (result, t)) : ∃ a, call s = some (a, t) := by
  obtain ⟨a, s', first, rest⟩ := Prog.bind_inv run
  cases rest
  exact ⟨a, first⟩

/-- One call that comes to an end. -/
def Step (s : Fs) (call : Call) (t : Fs) : Prop := call.exec s = some ((), t)

/-- `t` is reached from `s` by calls that each meet `sound` in the state they start from. -/
inductive Run (sound : Fs → Call → Prop) (s : Fs) : Fs → Prop
  | refl : Run sound s s
  | step {t u : Fs} {call : Call} (before : Run sound s t) (meets : sound t call)
      (step : Step t call u) : Run sound s u

/-- What each step keeps, a run keeps. -/
theorem Run.keeps {sound : Fs → Call → Prop} {P : Fs → Prop} {s t : Fs} (run : Run sound s t)
    (start : P s) (step : ∀ t call u, P t → sound t call → Step t call u → P u) : P t := by
  induction run with
  | refl => exact start
  | step before meets next ih => exact step _ _ _ ih meets next

theorem Run.trans {sound : Fs → Call → Prop} {s t u : Fs} (first : Run sound s t)
    (second : Run sound t u) : Run sound s u := by
  induction second with
  | refl => exact first
  | step _ meets next ih => exact .step ih meets next

/-- The module as loaded, on a host with some files that refuses what it likes. -/
def Fs.loaded (hostFiles : List UInt8 → Option HostFile) (host : List HostOutcome) : Fs :=
  { Fs.initial with hostFiles := hostFiles, host := host }

/-- The image file "A". -/
def imageA : CStr := .literal [65]

/-- The image file "B". -/
def imageB : CStr := .literal [66]

/-- The module as loaded, on a host without files that carries out every call. -/
def Fs.bare : Fs := .loaded (fun _ => none) []

/-- A list of calls, one after the other. -/
def runCalls : List Call → FsM Unit
  | [] => return ()
  | call :: rest => do
      call.exec
      runCalls rest

/-- The calls of a list may be made one after the other if each is sound in its turn. -/
def SoundCalls (sound : Fs → Call → Prop) : Fs → List Call → Prop
  | _, [] => True
  | s, call :: rest => sound s call ∧ SoundCalls sound (call.exec.after s) rest

theorem Run.of_calls {sound : Fs → Call → Prop} {s t : Fs} {calls : List Call}
    (run : runCalls calls s = some ((), t)) (meets : SoundCalls sound s calls) : Run sound s t := by
  induction calls generalizing s with
  | nil =>
      cases run
      exact .refl
  | cons call rest ih =>
      obtain ⟨_, s', first, later⟩ := Prog.bind_inv run
      have next : call.exec.after s = s' := by
        simp only [Prog.after, first, Option.map_some, Option.getD_some]
      obtain ⟨here, after⟩ := meets
      rw [next] at after
      exact (Run.step .refl here first).trans (ih later after)

theorem runCalls_after {s : Fs} {calls : List Call} (ends : (runCalls calls s).isSome = true) :
    runCalls calls s = some ((), (runCalls calls).after s) := by
  obtain ⟨⟨_, t⟩, run⟩ := Option.isSome_iff_exists.mp ends
  rw [run]
  simp only [Prog.after, run, Option.map_some, Option.getD_some]

end PennOs.Fat

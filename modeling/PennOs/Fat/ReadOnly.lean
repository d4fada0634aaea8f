import PennOs.Fat.TableRuns

set_option autoImplicit false

/- Lookups, whatever the image and the host: they leave all but the host alone, and only
`resolve_path` itself looks at the current directory. -/
namespace PennOs.Fat

open Prog (Keeps Commutes)
open Fs

/-- Some answers of the host were used up. -/
structure OnlyHost (s t : Fs) : Prop where
  rest : t.host <:+ s.host
  same : t = { s with host := t.host }

def Fs.setCwd (s : Fs) (c : Nat) : Fs := { s with gCwdBlock := c }

variable {s t : Fs} {c : Nat} {now : UInt64} {follow : Bool}
  {recurse : List UInt8 → FsM (PennFatErr × ResolvedPath)}

instance : Std.Refl OnlyHost := ⟨fun _ => ⟨List.suffix_rfl, rfl⟩⟩

instance : IsTrans Fs OnlyHost where
  trans s t u first second := by
    refine ⟨second.rest.trans first.rest, ?_⟩
    rw [second.same, first.same]

theorem OnlyHost.eq (only : OnlyHost s t) (host : s.host = []) : t = s := by
  have rest := only.rest
  rw [host, List.suffix_nil] at rest
  rw [only.same, rest, ← host]

section Host

theorem hostOk_host : Keeps OnlyHost hostOk := by
  refine .bind ?_ fun outcome => by cases outcome <;> exact .pure _
  intro s a t run
  unfold hostCall at run
  split at run
  · cases run
    exact Std.Refl.refl s
  · next outcome rest host =>
      cases run
      exact ⟨⟨[a], host.symm⟩, rfl⟩

theorem fatGet_host (index : Nat) : Keeps OnlyHost (fatGet index) := by
  refine .of_state fun s a t run => ?_
  unfold fatGet at run
  split at run
  · cases run
    rfl
  · cases run

theorem readBlock_host (b : Nat) : Keeps OnlyHost (readBlock b) := by
  unfold readBlock
  refine .bind .get fun s => .ite (fun _ => .pure _) fun _ => ?_
  refine .bind hostOk_host fun sought => .ite (fun _ => .pure _) fun _ => ?_
  refine .bind hostOk_host fun got => .ite (fun _ => .pure _) fun _ => ?_
  exact .bind .get fun t => .ite (fun _ => .pure _) fun _ => .pure _

theorem findLoop_host (name : List UInt8) (fuel current : Nat) :
    Keeps OnlyHost (findLoop name fuel current) := by
  induction fuel generalizing current with
  | zero => exact .fault
  | succ fuel ih =>
      unfold findLoop
      refine .ite (fun _ => .pure _) fun _ => .bind (readBlock_host current) fun read => ?_
      cases read with
      | none => exact .pure _
      | some buf =>
          refine .bind .get fun s => ?_
          split
          · exact .pure _
          · exact .bind (fatGet_host current) ih

theorem findEntryInDir_host (d : Nat) (name : List UInt8) : Keeps OnlyHost (findEntryInDir d name) := by
  unfold findEntryInDir
  refine .ite (fun _ => .pure _) fun _ => ?_
  refine .bind hostOk_host fun room => .ite (fun _ => .pure _) fun _ => ?_
  refine .bind (findLoop_host name _ d) fun found => ?_
  rcases found with err | _ | hit <;> exact .pure _

theorem readSymlinkTarget_host (link : DirEntry) : Keeps OnlyHost (readSymlinkTarget link) := by
  unfold readSymlinkTarget
  refine .ite (fun _ => .pure _) fun _ => ?_
  refine .bind hostOk_host fun room => .ite (fun _ => .pure _) fun _ => ?_
  refine .bind (readBlock_host _) fun read => ?_
  cases read <;> exact .pure _

theorem resolvePathInternal_host (levels : Nat) (path : List UInt8) :
    Keeps OnlyHost (resolvePathInternal now follow levels path) :=
  resolvePathInternal_preserves findEntryInDir_host readSymlinkTarget_host levels path

theorem resolvePath_host (path : List UInt8) : Keeps OnlyHost (resolvePath now path) := by
  unfold resolvePath
  exact .ite (fun _ => .pure _) fun _ => resolvePathInternal_host symlinkLevels path

end Host

section Directory

theorem hostOk_cwd : Commutes (fun s : Fs => s.setCwd c) hostOk := by
  refine .bind (fun s => ?_) fun outcome => by cases outcome <;> exact .pure _
  cases host : s.host with
  | nil => simp only [hostCall, setCwd, host, Option.map_some, Prod.map_apply, id_eq]
  | cons outcome rest => simp only [hostCall, setCwd, host, Option.map_some, Prod.map_apply, id_eq]

theorem fatGet_cwd (index : Nat) : Commutes (fun s : Fs => s.setCwd c) (fatGet index) := by
  intro s
  have mapped : (s.setCwd c).fatMapped index = s.fatMapped index := rfl
  rw [fatGet, fatGet, mapped]
  split
  · rfl
  · rfl

theorem readBlock_cwd (b : Nat) : Commutes (fun s : Fs => s.setCwd c) (readBlock b) := by
  unfold readBlock
  refine .get (fun _ => rfl) fun s => .ite (fun _ => .pure _) fun _ => ?_
  refine .bind hostOk_cwd fun sought => .ite (fun _ => .pure _) fun _ => ?_
  refine .bind hostOk_cwd fun got => .ite (fun _ => .pure _) fun _ => ?_
  exact .get (fun _ => rfl) fun t => .ite (fun _ => .pure _) fun _ => .pure _

theorem findLoop_cwd (name : List UInt8) (fuel current : Nat) :
    Commutes (fun s : Fs => s.setCwd c) (findLoop name fuel current) := by
  induction fuel generalizing current with
  | zero => exact .fault
  | succ fuel ih =>
      unfold findLoop
      refine .ite (fun _ => .pure _) fun _ => .bind (readBlock_cwd current) fun read => ?_
      cases read with
      | none => exact .pure _
      | some buf =>
          refine .get (fun _ => rfl) fun s => ?_
          split
          · exact .pure _
          · exact .bind (fatGet_cwd current) ih

theorem findEntryInDir_cwd (d : Nat) (name : List UInt8) :
    Commutes (fun s : Fs => s.setCwd c) (findEntryInDir d name) := by
  unfold findEntryInDir
  refine .ite (fun _ => .pure _) fun _ => ?_
  refine .bind hostOk_cwd fun room => .ite (fun _ => .pure _) fun _ => ?_
  refine .bind (findLoop_cwd name _ d) fun found => ?_
  rcases found with err | _ | hit <;> exact .pure _

theorem readSymlinkTarget_cwd (link : DirEntry) :
    Commutes (fun s : Fs => s.setCwd c) (readSymlinkTarget link) := by
  unfold readSymlinkTarget
  refine .ite (fun _ => .pure _) fun _ => ?_
  refine .bind hostOk_cwd fun room => .ite (fun _ => .pure _) fun _ => ?_
  refine .bind (readBlock_cwd _) fun read => ?_
  cases read <;> exact .pure _

end Directory

end PennOs.Fat

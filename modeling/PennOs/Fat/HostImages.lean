import PennOs.Fat.HostFrames
import PennOs.Fat.Trees

set_option autoImplicit false

/- The image files on the host, each of them as `k_mkfs` or `k_unmount` leaves it. -/
namespace PennOs.Fat

open Image (Promises)
open Fs

/-- The image file at hand has the super block of a volume. -/
def Fs.IsImage (s : Fs) : Prop := ∃ config fatBlocks, s.Formatted config fatBlocks

/-- If the file has the super block of a volume, it holds the image of an unmounted volume of one FAT
block that keeps its promises. -/
def HostFile.Sound (promised : Promises) (image : HostFile) : Prop :=
  Fs.IsImage { Fs.initial with file := image.bytes, fileSize := image.size } →
    ∃ config I, Stored promised { Fs.initial with file := image.bytes, fileSize := image.size } config I

/-- The image files other than the one at hand are sound. -/
def Fs.OthersSound (promised : Promises) (s : Fs) : Prop :=
  ∀ name image, s.imageName ≠ some name → s.hostFiles name = some image → image.Sound promised

/-- A file name, and a host on which the other image files are sound. -/
structure HostSound (promised : Promises) (hostFiles : List UInt8 → Option HostFile)
    (fsName : List UInt8) : Prop where
  named : fsName ≠ []
  others : ∀ name image, name ≠ fsName → hostFiles name = some image → image.Sound promised

variable {promised : Promises} {s t : Fs} {I : Image} {config : Nat} {fsName : List UInt8}
  {image : HostFile}

/-- Another file than the one at hand that is to be mounted is an image with the current directory on it. -/
def MountSound (s : Fs) (fsName : List UInt8) : Prop :=
  s.imageName ≠ some fsName → (s.useImage fsName).IsImage ∧ (s.useImage fsName).disk.Dir s.gCwdBlock

theorem HostSound.empty (named : fsName ≠ []) : HostSound promised (fun _ => none) fsName :=
  ⟨named, by rintro _ _ _ ⟨⟩⟩

section Files

/-- Only the bytes of the image, and a current directory on it, make a stored volume. -/
theorem Stored.alike (stored : Stored promised s config I) (file : t.file = s.file)
    (fileSize : t.fileSize = s.fileSize) (unmounted : t.gMounted = false) (host : t.host = [])
    (cwd : I.dirs t.gCwdBlock) : Stored promised t config I := by
  have resting := stored.rests
  obtain ⟨config', small, size, word⟩ := resting.tracks.volume.super
  obtain ⟨root, copied, zeroes⟩ := resting.tracks.volume.rootCopy
  have formatted : t.Formatted config 1 := by
    obtain ⟨first, low, second, bounds, inside⟩ := stored.formatted
    exact ⟨file ▸ first, low, file ▸ second, bounds, fileSize ▸ inside⟩
  have fat : (t.mountAs config 1).fat = (s.mountAs config 1).fat := by
    funext b
    show LittleEndian.value (fun i => t.file (2 * b + i)) 2 =
      LittleEndian.value (fun i => s.file (2 * b + i)) 2
    rw [file]
  have block : (t.mountAs config 1).block = (s.mountAs config 1).block := by
    funext b j
    show (if j < blockSizes config then t.file _ else 0) = if j < blockSizes config then s.file _ else 0
    rw [file]
    rfl
  refine ⟨unmounted, host, formatted, ⟨⟨⟨⟨mountAs_mounted host formatted, ?_⟩, ?_, ?_, ?_⟩, ?_⟩,
    resting.good, resting.idle, cwd⟩⟩
  · show _ ≤ t.fileSize
    rw [fileSize]
    exact resting.tracks.volume.size
  · show t.fileSize ≤ _
    rw [fileSize]
    exact resting.tracks.volume.fits
  · exact ⟨config', small, size, fat ▸ word⟩
  · refine ⟨_, rfl, fun j inside => ?_⟩
    show t.rootCopy config 1 j = 0
    rw [rootCopy, file]
    have same : root = ⟨s.nextHandle + 2, s.rootCopy config 1⟩ := (Option.some.inj copied).symm
    have zero := zeroes j inside
    rw [same] at zero
    exact zero
  · exact
      { blocks := resting.tracks.shows.blocks
        slots := resting.tracks.shows.slots
        fat := fat ▸ resting.tracks.shows.fat
        slot := block ▸ resting.tracks.shows.slot }

/-- An unmounted volume leaves a sound image. -/
theorem Stored.sound (stored : Stored promised s config I) : HostFile.Sound promised ⟨s.file, s.fileSize⟩ :=
  fun _ => ⟨config, I, stored.alike rfl rfl rfl rfl stored.rests.good.wf.root⟩

theorem hostFile_own (own : s.imageName = some fsName) : s.hostFile fsName = some ⟨s.file, s.fileSize⟩ :=
  if_pos own

theorem hostFile_other (other : s.imageName ≠ some fsName) : s.hostFile fsName = s.hostFiles fsName :=
  if_neg other

/-- An image leaves the hand as a sound one. -/
theorem Stored.useImage_others (stored : Stored promised s config I) (others : s.OthersSound promised)
    (fsName : List UInt8) : (s.useImage fsName).OthersSound promised := by
  intro name image _ found
  have found : s.hostFile name = some image := found
  by_cases own : s.imageName = some name
  · rw [hostFile_own own] at found
    obtain rfl := Option.some.inj found
    exact stored.sound
  · rw [hostFile_other own] at found
    exact others name image own found

/-- The file that `k_mount` opens holds a volume: the one at hand, or another with the current directory
on it. -/
theorem Stored.useImage (stored : Stored promised s config I) (others : s.OthersSound promised)
    (there : s.opens false fsName = true)
    (sound : MountSound s fsName) :
    ∃ config' J, Stored promised (s.useImage fsName) config' J ∧
      (J = I ∨ Shows (s.useImage fsName).disk J ∧ (s.useImage fsName).disk.Dir s.gCwdBlock) := by
  by_cases own : s.imageName = some fsName
  · have image := hostFile_own own
    refine ⟨config, I, stored.alike ?_ ?_ stored.unmounted stored.host stored.rests.cwd, .inl rfl⟩
    · show ((s.hostFile fsName).getD .empty).bytes = s.file
      rw [image]
      rfl
    · show ((s.hostFile fsName).getD .empty).size = s.fileSize
      rw [image]
      rfl
  · have found : (s.hostFile fsName).isSome = true := by
      simp only [opens, Bool.false_or, Bool.and_eq_true] at there
      exact there.2
    obtain ⟨image, found⟩ := Option.isSome_iff_exists.mp found
    obtain ⟨⟨size₀, fatBlocks, formatted⟩, cwd⟩ := sound own
    have file : (s.useImage fsName).file = image.bytes := by
      show ((s.hostFile fsName).getD .empty).bytes = image.bytes
      rw [found]
      rfl
    have size : (s.useImage fsName).fileSize = image.size := by
      show ((s.hostFile fsName).getD .empty).size = image.size
      rw [found]
      rfl
    have isImage : Fs.IsImage { Fs.initial with file := image.bytes, fileSize := image.size } := by
      obtain ⟨first, low, second, bounds, inside⟩ := formatted
      exact ⟨size₀, fatBlocks, file ▸ first, low, file ▸ second, bounds, size ▸ inside⟩
    obtain ⟨config', J, stored'⟩ := others fsName image own (hostFile_other own ▸ found) isImage
    have shows : Shows (s.useImage fsName).disk J := by
      have same : (s.useImage fsName).disk =
          ({ Fs.initial with file := image.bytes, fileSize := image.size }.mountAs config' 1).disk := by
        simp only [disk, file, size]
        rfl
      exact same ▸ stored'.rests.tracks.disk
    have here := shows.dirs stored'.rests.good.wf cwd
    exact ⟨config', J, stored'.alike file size stored.unmounted stored.host here, .inr ⟨shows, cwd⟩⟩

end Files

end PennOs.Fat

import PennOs.Fat.Directories

set_option autoImplicit false

/- The packed bytes of a directory entry, alone and inside a block buffer. -/
namespace PennOs.Fat

namespace DirEntry

theorem encode_name (e : DirEntry) (i : Fin 32) : e.encode i = e.name i := by
  simp [encode, i.isLt]

theorem encode_size (e : DirEntry) {i : Nat} (bound : i < 4) :
    e.encode (32 + i) = LittleEndian.byte e.size.toNat i := by
  have high : ¬ 32 + i < 32 := by omega
  have low : 32 + i < 36 := by omega
  simp [encode, high, low]

theorem encode_firstBlock (e : DirEntry) {i : Nat} (bound : i < 2) :
    e.encode (36 + i) = LittleEndian.byte e.firstBlock.toNat i := by
  have high : ¬ 36 + i < 32 := by omega
  have high' : ¬ 36 + i < 36 := by omega
  have low : 36 + i < 38 := by omega
  simp [encode, high, high', low]

theorem encode_mtime (e : DirEntry) {i : Nat} (bound : i < 8) :
    e.encode (40 + i) = LittleEndian.byte e.mtime.toNat i := by
  have high : ¬ 40 + i < 32 := by omega
  have high' : ¬ 40 + i < 36 := by omega
  have high'' : ¬ 40 + i < 38 := by omega
  have other : 40 + i ≠ 38 := by omega
  have other' : 40 + i ≠ 39 := by omega
  have low : 40 + i < 48 := by omega
  simp [encode, high, high', high'', other, other', low]

theorem encode_reserved (e : DirEntry) (i : Fin 16) : e.encode (48 + i) = e.reserved i := by
  have bound := i.isLt
  have high : ¬ 48 + i.val < 32 := by omega
  have high' : ¬ 48 + i.val < 36 := by omega
  have high'' : ¬ 48 + i.val < 38 := by omega
  have other : 48 + i.val ≠ 38 := by omega
  have other' : 48 + i.val ≠ 39 := by omega
  have high''' : ¬ 48 + i.val < 48 := by omega
  simp [encode, high, high', high'', other, other', high''', bound]

/-- Reading back a packed entry gives the entry. -/
theorem decode_encode (e : DirEntry) : decode e.encode = e := by
  have size : LittleEndian.value (fun i => e.encode (32 + i)) 4 = e.size.toNat := by
    rw [LittleEndian.value_congr fun i bound => e.encode_size bound]
    exact LittleEndian.value_byte_of_lt e.size.toNat_lt
  have firstBlock : LittleEndian.value (fun i => e.encode (36 + i)) 2 = e.firstBlock.toNat := by
    rw [LittleEndian.value_congr fun i bound => e.encode_firstBlock bound]
    exact LittleEndian.value_byte_of_lt e.firstBlock.toNat_lt
  have mtime : LittleEndian.value (fun i => e.encode (40 + i)) 8 = e.mtime.toNat := by
    rw [LittleEndian.value_congr fun i bound => e.encode_mtime bound]
    exact LittleEndian.value_byte_of_lt e.mtime.toNat_lt
  have name : (fun i : Fin 32 => e.encode i) = e.name := funext e.encode_name
  have reserved : (fun i : Fin 16 => e.encode (48 + i)) = e.reserved := funext e.encode_reserved
  simp only [decode, size, firstBlock, mtime, name, reserved, UInt32.ofNat_toNat,
    UInt16.ofNat_toNat, UInt64.ofNat_toNat]
  rfl

theorem decode_congr {left right : Buffer} (same : ∀ j < 64, left j = right j) :
    decode left = decode right := by
  have field : ∀ start width, start + width ≤ 64 →
      LittleEndian.value (fun i => left (start + i)) width =
        LittleEndian.value (fun i => right (start + i)) width :=
    fun start width inside => LittleEndian.value_congr fun i bound => same (start + i) (by omega)
  have size := field 32 4 (by decide)
  have firstBlock := field 36 2 (by decide)
  have mtime := field 40 8 (by decide)
  have name : (fun i : Fin 32 => left i) = fun i : Fin 32 => right i :=
    funext fun i => same i (by omega)
  have reserved : (fun i : Fin 16 => left (48 + i)) = fun i : Fin 16 => right (48 + i) :=
    funext fun i => same (48 + i) (by omega)
  simp only [decode, size, firstBlock, mtime, name, reserved, same 38 (by omega),
    same 39 (by omega)]

/-- Equal entries have equal bytes. -/
theorem decode_injective {left right : Buffer} (same : decode left = decode right) :
    ∀ j < 64, left j = right j := by
  have name := congrArg DirEntry.name same
  have size := congrArg (fun e => (DirEntry.size e).toNat) same
  have firstBlock := congrArg (fun e => (DirEntry.firstBlock e).toNat) same
  have mtime := congrArg (fun e => (DirEntry.mtime e).toNat) same
  have reserved := congrArg DirEntry.reserved same
  simp only [decode, UInt32.toNat_ofNat', UInt16.toNat_ofNat', UInt64.toNat_ofNat'] at size firstBlock mtime
  have size' : LittleEndian.value (fun i => left (32 + i)) 4 =
      LittleEndian.value (fun i => right (32 + i)) 4 := by
    have low := LittleEndian.value_lt (fun i => left (32 + i)) 4
    have high := LittleEndian.value_lt (fun i => right (32 + i)) 4
    omega
  have firstBlock' : LittleEndian.value (fun i => left (36 + i)) 2 =
      LittleEndian.value (fun i => right (36 + i)) 2 := by
    have low := LittleEndian.value_lt (fun i => left (36 + i)) 2
    have high := LittleEndian.value_lt (fun i => right (36 + i)) 2
    omega
  have mtime' : LittleEndian.value (fun i => left (40 + i)) 8 =
      LittleEndian.value (fun i => right (40 + i)) 8 := by
    have low := LittleEndian.value_lt (fun i => left (40 + i)) 8
    have high := LittleEndian.value_lt (fun i => right (40 + i)) 8
    omega
  have at_ : ∀ {start width}, LittleEndian.value (fun i => left (start + i)) width =
      LittleEndian.value (fun i => right (start + i)) width → ∀ j, start ≤ j → j < start + width →
      left j = right j := by
    intro start width equal j low high
    have here := LittleEndian.value_injective equal (j - start) (by omega)
    simpa only [Nat.add_sub_cancel' low] using here
  intro j inside
  by_cases inName : j < 32
  · exact congrFun name ⟨j, inName⟩
  by_cases inSize : j < 36
  · exact at_ size' j (by omega) inSize
  by_cases inFirst : j < 38
  · exact at_ firstBlock' j (by omega) inFirst
  by_cases inType : j = 38
  · exact inType ▸ congrArg DirEntry.type same
  by_cases inPerm : j = 39
  · exact inPerm ▸ congrArg DirEntry.perm same
  by_cases inTime : j < 48
  · exact at_ mtime' j (by omega) inTime
  · have here := congrFun reserved ⟨j - 48, by omega⟩
    simp only [decode] at here
    simpa only [Nat.add_sub_cancel' (show 48 ≤ j by omega)] using here

theorem live_iff {e : DirEntry} : e.live = true ↔ e.name0 ≠ 0 ∧ e.name0 ≠ 1 ∧ e.name0 ≠ 2 := by
  simp [live, and_assoc]

@[simp] theorem deleted_name0 : deleted.name0 = 1 := rfl

@[simp] theorem deleted_live : deleted.live = false := rfl

@[simp] theorem zero_name0 : zero.name0 = 0 := rfl

@[simp] theorem zero_live : zero.live = false := rfl

end DirEntry

theorem overlay_inside {bytes buf : Nat → UInt8} {start len a : Nat}
    (low : start ≤ a) (high : a < start + len) : overlay bytes start len buf a = buf (a - start) := by
  simp [overlay, low, high]

theorem overlay_outside {bytes buf : Nat → UInt8} {start len a : Nat}
    (outside : a < start ∨ start + len ≤ a) : overlay bytes start len buf a = bytes a := by
  have miss : ¬ (start ≤ a ∧ a < start + len) := by omega
  simp [overlay, miss]

theorem direntAt_setDirentAt_self (buf : Buffer) (index : Nat) (entry : DirEntry) :
    direntAt (setDirentAt buf index entry) index = entry := by
  have bytes : ∀ j < 64, setDirentAt buf index entry (64 * index + j) = entry.encode j := by
    intro j bound
    simp only [setDirentAt]
    rw [overlay_inside (by omega) (by omega), Nat.add_sub_cancel_left]
  rw [direntAt, DirEntry.decode_congr bytes, DirEntry.decode_encode]

theorem direntAt_setDirentAt_ne (buf : Buffer) {index other : Nat} (entry : DirEntry)
    (apart : other ≠ index) : direntAt (setDirentAt buf index entry) other = direntAt buf other := by
  apply DirEntry.decode_congr
  intro j bound
  exact overlay_outside (by omega)

theorem direntAt_setDirentAt (buf : Buffer) (index other : Nat) (entry : DirEntry) :
    direntAt (setDirentAt buf index entry) other =
      if other = index then entry else direntAt buf other := by
  split
  · next same => rw [same, direntAt_setDirentAt_self]
  · next apart => exact direntAt_setDirentAt_ne buf entry apart

theorem direntAt_congr {left right : Buffer} {index : Nat}
    (same : ∀ j, 64 * index ≤ j → j < 64 * index + 64 → left j = right j) :
    direntAt left index = direntAt right index :=
  DirEntry.decode_congr fun j _ => same (64 * index + j) (by omega) (by omega)

@[simp] theorem direntAt_zeroBuffer (index : Nat) : direntAt zeroBuffer index = .zero := by
  have value : ∀ width, LittleEndian.value (fun _ => 0) width = 0 := by
    intro width
    induction width with
    | zero => rfl
    | succ width ih => simp [LittleEndian.value, ih]
  simp only [direntAt, zeroBuffer, DirEntry.decode, value]
  rfl

end PennOs.Fat

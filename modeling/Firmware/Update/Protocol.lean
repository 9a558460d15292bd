import Firmware.Lib.Bytes

/-!
# Update Protocol

The constants and the byte order of the TCP update protocol, from
`applications/update.h`.

A client frame is a three-byte header, whose first byte names the frame, followed
by a payload: four bytes of image length after `SOH`, one block of 1024 bytes
after `STX`, nothing after `EOT`. The image is kept in flash sectors of 4096
bytes, four blocks to a sector, and a sector of its own says how long the image
is and that it is complete.

`rbigu4` and `wbigu4` are the two macros that read and write a 32-bit number most
significant byte first. `char` is unsigned on this target, so the bytes are read
as they are. `bigBytes_rbigu4` is the round trip the length makes from the `SOH`
frame to the information sector.

What the two macros should do is said without them: `BigEndian` counts each of four
bytes by its place, and `magicBytes` are the bytes a boot loader looks for. Statements
about what a client sends or what is in flash are in these terms, and
`bigEndian_bigBytes`, `bigEndian_rbigu4` and `bigBytes_magic` are where the macros meet
them.

## Main definitions

* `rbigu4`: Reading a number from four bytes.
* `bigBytes`: The four bytes that are written for a number.
* `bigValue`: The number that is read from four bytes.
* `wbigu4`: Writing a number into a buffer.
* `BigEndian`: Four bytes that stand for a number.
* `magicBytes`: The bytes of `MAGIC`.
* `InfoSector`: The information sector of an image of a length.

## Theorems

* `bigEndian_bigBytes`: The bytes written for a number stand for it.
* `bigEndian_rbigu4`: Four bytes stand for the number that is read from them.
* `bigBytes_rbigu4`: Writing a number that was read gives the bytes back.
* `rbigu4_of_holds`: Reading a number from a buffer that holds its bytes.
* `infoSector_wbigu4`: What is written for a length is its information sector.
-/

namespace Firmware

namespace Update

/-- `SOH`: the frame announcing the image length. -/
def soh : UInt8 := 0x01

/-- `STX`: the frame carrying one block of the image. -/
def stx : UInt8 := 0x02

/-- `EOT`: the frame ending the image. -/
def eot : UInt8 := 0x04

/-- `ACK` -/
def ack : UInt8 := 0x06

/-- `NAK` -/
def nak : UInt8 := 0x15

/-- `MAGIC`: marks the information sector of a complete image. -/
def magic : UInt32 := 0x11223344

/-- `HEADER_LEN` -/
abbrev headerLen : Nat := 3

instance : NeZero headerLen := ⟨by decide⟩

/-- `BUF_SZ`: the page buffer, one flash sector. -/
abbrev bufSz : Nat := 4096

/-- `MAX_DATA_SIZE`: the payload of one `STX` frame. -/
abbrev maxDataSize : Nat := 1024

/-- `UPDATE_INFO_ADDR`: the information sector. -/
abbrev updateInfoAddr : Nat := 897

/-- `UPDATE_DATA_ADDR`: the first sector of the image. -/
abbrev updateDataAddr : Nat := 898

/-- What `data_buf` points to. -/
abbrev Page := Buffer UInt8 bufSz

/-- `RBIGU4` -/
def rbigu4 (p : Buffer UInt8 4) : UInt32 :=
  (p 0).toUInt32 <<< 24 ||| (p 1).toUInt32 <<< 16 ||| (p 2).toUInt32 <<< 8 ||| (p 3).toUInt32

/-- The bytes `WBIGU4` writes for a number. -/
def bigBytes (i : UInt32) : List UInt8 :=
  [((i >>> 24) &&& 0xff).toUInt8, ((i >>> 16) &&& 0xff).toUInt8,
    ((i >>> 8) &&& 0xff).toUInt8, (i &&& 0xff).toUInt8]

/-- The number four bytes announce. -/
def bigValue (bytes : List UInt8) : UInt32 := rbigu4 (Buffer.store (fun _ => 0) 0 bytes)

/-- `WBIGU4`: write a number into the buffer from position `off` on. -/
def wbigu4 {n : Nat} (p : Buffer UInt8 n) (off : Nat) (i : UInt32) : Buffer UInt8 n :=
  p.store off (bigBytes i)

/-- Four bytes that stand for a number, the most significant one first. -/
def BigEndian (n : Nat) (bytes : List UInt8) : Prop := bytes.length = 4 ∧ beValue bytes = n

/-- The bytes a boot loader finds behind the length of a complete image. -/
def magicBytes : List UInt8 := [0x11, 0x22, 0x33, 0x44]

/-- The page begins with the length of an image and `MAGIC`. -/
def InfoSector (n : Nat) (page : Page) : Prop :=
  ∃ bytes, BigEndian n bytes ∧ page.Holds 0 (bytes ++ magicBytes)

@[simp] theorem bigBytes_length (i : UInt32) : (bigBytes i).length = 4 := rfl

/-- The value of four bytes, place by place. -/
theorem beValue_four (a b c d : UInt8) :
    beValue [a, b, c, d] =
      a.toNat * 2 ^ 24 + b.toNat * 2 ^ 16 + c.toNat * 2 ^ 8 + d.toNat := by
  simp only [beValue, List.length_cons, List.length_nil]
  omega

/-- Only one list of bytes stands for a number. -/
theorem BigEndian.unique {n : Nat} {xs ys : List UInt8} (h : BigEndian n xs)
    (h' : BigEndian n ys) : xs = ys :=
  beValue_inj (h.1.trans h'.1.symm) (h.2.trans h'.2.symm)

/-- The bytes `WBIGU4` writes stand for the number. -/
theorem bigEndian_bigBytes (i : UInt32) : BigEndian i.toNat (bigBytes i) := by
  refine ⟨rfl, ?_⟩
  have hbyte : ∀ x : UInt32, ((x &&& 0xff).toUInt8).toNat = x.toNat % 256 := by
    intro x
    rw [UInt32.toNat_toUInt8, UInt32.toNat_and]
    have hmask : x.toNat &&& (0xff : UInt32).toNat = x.toNat % 2 ^ 8 :=
      Nat.and_two_pow_sub_one_eq_mod x.toNat 8
    rw [hmask]
    omega
  -- Each byte is a digit of the number to the base 256.
  have hi := i.toNat_lt
  rw [bigBytes, beValue_four, hbyte, hbyte, hbyte, hbyte]
  simp only [UInt32.toNat_shiftRight, UInt32.reduceToNat, Nat.reduceMod, Nat.shiftRight_eq_div_pow]
  omega

/-- A byte that is shifted to a place of the number keeps all of its bits. -/
theorem toNat_place (x : UInt8) {k : UInt32} (hk : k.toNat ≤ 24) :
    (x.toUInt32 <<< k).toNat = x.toNat <<< k.toNat := by
  have hfit : x.toNat <<< k.toNat < 2 ^ 32 := by
    rw [Nat.shiftLeft_eq]
    calc x.toNat * 2 ^ k.toNat
        < 2 ^ 8 * 2 ^ k.toNat := Nat.mul_lt_mul_of_pos_right x.toNat_lt (Nat.two_pow_pos _)
      _ ≤ 2 ^ 8 * 2 ^ 24 := Nat.mul_le_mul_left _ (Nat.pow_le_pow_right Nat.two_pos hk)
  rw [UInt32.toNat_shiftLeft, UInt8.toNat_toUInt32, Nat.mod_eq_of_lt (by omega : k.toNat < 32),
    Nat.mod_eq_of_lt hfit]

/-- Four bytes stand for the number `RBIGU4` reads from them. -/
theorem bigEndian_rbigu4 (p : Buffer UInt8 4) :
    BigEndian (rbigu4 p).toNat [p 0, p 1, p 2, p 3] := by
  refine ⟨rfl, ?_⟩
  -- No byte reaches the place of another one, so that `|||` adds them up from the lowest on.
  have hc := Nat.shiftLeft_add_eq_or_of_lt (p 3).toNat_lt (p 2).toNat
  have hlow : (p 2).toNat <<< 8 + (p 3).toNat < 2 ^ 16 := by
    have h2 := (p 2).toNat_lt
    have h3 := (p 3).toNat_lt
    rw [Nat.shiftLeft_eq]
    omega
  have hb := Nat.shiftLeft_add_eq_or_of_lt hlow (p 1).toNat
  have hmid : (p 1).toNat <<< 16 + ((p 2).toNat <<< 8 + (p 3).toNat) < 2 ^ 24 := by
    have h1 := (p 1).toNat_lt
    rw [Nat.shiftLeft_eq (p 1).toNat]
    omega
  have ha := Nat.shiftLeft_add_eq_or_of_lt hmid (p 0).toNat
  rw [beValue_four, rbigu4, UInt32.toNat_or, UInt32.toNat_or, UInt32.toNat_or,
    toNat_place _ (k := 24) (by decide), toNat_place _ (k := 16) (by decide),
    toNat_place _ (k := 8) (by decide), UInt8.toNat_toUInt32, Nat.or_assoc, Nat.or_assoc]
  change _ = (p 0).toNat <<< 24 ||| ((p 1).toNat <<< 16 ||| ((p 2).toNat <<< 8 ||| (p 3).toNat))
  rw [← hc, ← hb, ← ha]
  simp only [Nat.shiftLeft_eq, Nat.add_assoc]

/-- Writing a number that was read gives back the four bytes it was read from. -/
theorem bigBytes_rbigu4 (p : Buffer UInt8 4) : bigBytes (rbigu4 p) = [p 0, p 1, p 2, p 3] :=
  (bigEndian_bigBytes (rbigu4 p)).unique (bigEndian_rbigu4 p)

/-- Four bytes in a buffer of four decide the number. -/
theorem rbigu4_of_holds {b : Buffer UInt8 4} {bytes : List UInt8} (h : b.Holds 0 bytes)
    (hlen : bytes.length = 4) : rbigu4 b = bigValue bytes := by
  have heq : b = Buffer.store (fun _ => 0) 0 bytes := by
    funext i
    rcases h i (by omega) with ⟨hi, hval⟩
    rcases Buffer.holds_store (n := 4) (fun _ => 0) 0 bytes (by omega) i (by omega) with
      ⟨hi', hval'⟩
    have hidx : (⟨0 + i, hi⟩ : Fin 4) = i := Fin.ext (Nat.zero_add _)
    rw [hidx] at hval
    have hidx' : (⟨0 + i, hi'⟩ : Fin 4) = i := Fin.ext (Nat.zero_add _)
    rw [hidx'] at hval'
    rw [hval]
    exact hval'.symm
  rw [heq, bigValue]

/-- Reading a number from a buffer that holds its bytes, place by place. -/
theorem toNat_rbigu4 {b : Buffer UInt8 4} {bytes : List UInt8} (h : b.Holds 0 bytes)
    (hlen : bytes.length = 4) : (rbigu4 b).toNat = beValue bytes := by
  have heq : [b 0, b 1, b 2, b 3] = bytes := by
    refine List.ext_getElem hlen.symm fun i hi hi' => ?_
    rcases h i hi' with ⟨hlt, hval⟩
    rw [← hval]
    have hi4 : i < 4 := hi
    interval_cases i <;> rfl
  rw [← heq]
  exact (bigEndian_rbigu4 b).2.symm

theorem bigBytes_magic : bigBytes magic = magicBytes := by decide

/-- What `WBIGU4` makes of the page buffer at `EOT`: the information sector. -/
theorem infoSector_wbigu4 (p : Page) (n : UInt32) :
    InfoSector n.toNat (wbigu4 (wbigu4 p 0 n) 4 magic) := by
  refine ⟨bigBytes n, bigEndian_bigBytes n, ?_⟩
  rw [← bigBytes_magic]
  refine Buffer.holds_append _ _ _ _ (Buffer.holds_store_after _ _ _ _ _ ?_ (le_refl _)) ?_
  · exact Buffer.holds_store p 0 (bigBytes n) (by rw [bigBytes_length]; decide)
  · exact Buffer.holds_store _ 4 (bigBytes magic) (by decide)

end Update

end Firmware

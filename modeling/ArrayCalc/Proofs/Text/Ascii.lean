import Mathlib
import ArrayCalc.Text.Encoding

namespace ArrayCalc.Text

def IsAscii (cs : List Char) : Prop :=
  ∀ c ∈ cs, c.toNat < 0x80

/-- One byte for each character. -/
def asciiBytes (cs : List Char) : List UInt8 :=
  cs.map fun c => UInt8.ofNat c.toNat

@[simp] theorem isAscii_nil : IsAscii [] := by
  intro c h
  cases h

@[simp] theorem isAscii_cons {c : Char} {cs : List Char} : IsAscii (c :: cs) ↔ c.toNat < 0x80 ∧ IsAscii cs := by
  simp [IsAscii]

@[simp] theorem isAscii_append {cs ds : List Char} : IsAscii (cs ++ ds) ↔ IsAscii cs ∧ IsAscii ds := by
  simp [IsAscii, or_imp, forall_and]

theorem toNat_asciiByte {c : Char} (h : c.toNat < 0x80) : (UInt8.ofNat c.toNat).toNat = c.toNat := by
  rw [UInt8.toNat_ofNat']
  exact Nat.mod_eq_of_lt (by omega)

/-- The single-byte western encoding extends ASCII. -/
theorem decodeWestern_asciiBytes {cs : List Char} (h : IsAscii cs) : decodeWestern (asciiBytes cs) = cs := by
  induction cs with
  | nil => rfl
  | cons c cs ih =>
    have hc := h c List.mem_cons_self
    have hbyte := toNat_asciiByte hc
    have hrest := ih fun c hc => h c (List.mem_cons_of_mem _ hc)
    rw [decodeWestern, asciiBytes, List.map_cons, List.map_cons, westernChar_of_lt (by omega), hbyte, Char.ofNat_toNat]
    exact congrArg (c :: ·) hrest

theorem decodeUnits_asciiBytes {cs : List Char} (h : IsAscii cs) :
    decodeUnits none (asciiBytes cs) = cs.map some := by
  induction cs with
  | nil => rfl
  | cons c cs ih =>
    have hc := h c List.mem_cons_self
    have hbyte := toNat_asciiByte hc
    have hrest := ih fun c hc => h c (List.mem_cons_of_mem _ hc)
    have hunit : nextUnit none (UInt8.ofNat c.toNat) = ([some c], none) := by
      rw [nextUnit, startUnit, if_pos (by omega), hbyte, Char.ofNat_toNat]
    rw [asciiBytes, List.map_cons, decodeUnits, hunit]
    exact congrArg (some c :: ·) hrest

/-- No ASCII text begins with a byte-order mark, nor with any other byte of the upper half. -/
theorem asciiBytes_ne_cons {cs : List Char} (h : IsAscii cs) {b : UInt8} (hb : 0x80 ≤ b.toNat) (rest : List UInt8) :
    asciiBytes cs ≠ b :: rest := by
  intro hbytes
  cases cs with
  | nil => cases hbytes
  | cons c cs =>
    have hc := h c List.mem_cons_self
    have hbyte := toNat_asciiByte hc
    have hhead : UInt8.ofNat c.toNat = b := (List.cons.inj hbytes).1
    rw [hhead] at hbyte
    omega

theorem dropMark_asciiBytes {cs : List Char} (h : IsAscii cs) : dropMark (asciiBytes cs) = asciiBytes cs := by
  unfold dropMark
  split
  · rename_i hbytes
    exact absurd hbytes (asciiBytes_ne_cons h (by decide) _)
  · rfl

/-- UTF-8 extends ASCII too. -/
theorem encodeUtf8_eq_asciiBytes {cs : List Char} (h : IsAscii cs) : encodeUtf8 cs = asciiBytes cs := by
  rw [encodeUtf8, asciiBytes, ← List.flatMap_pure_eq_map]
  refine List.flatMap_congr fun c hc => ?_
  exact if_pos (Nat.le_of_lt_succ (h c hc))

theorem decodeUtf8Lossy_asciiBytes {cs : List Char} (h : IsAscii cs) :
    decodeUtf8Lossy (dropMark (asciiBytes cs)) = cs := by
  rw [dropMark_asciiBytes h, decodeUtf8Lossy, decodeUnits_asciiBytes h, List.map_map]
  exact List.map_id _

theorem decodeUtf8?_asciiBytes {cs : List Char} (h : IsAscii cs) : decodeUtf8? (dropMark (asciiBytes cs)) = some cs := by
  rw [dropMark_asciiBytes h, decodeUtf8?, decodeUnits_asciiBytes h, List.mapM_map]
  exact List.mapM_pure.trans (congrArg some (List.map_id cs))

end ArrayCalc.Text

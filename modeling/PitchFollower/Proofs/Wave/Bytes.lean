import Mathlib.Tactic.Linarith
import Mathlib.Tactic.Positivity
import PitchFollower.Wave.Reader
import PitchFollower.Wave.Writer

/-!
# Chunks read back

What a recording is written as is taken apart again piece by piece: numbers of a
fixed width, the format chunk, and the samples behind it.
-/

namespace PitchFollower.Wave

/-! ## Numbers of a fixed width -/

theorem length_littleEndian (width n : ℕ) :
    (littleEndian width n).length = width := by
  induction width generalizing n with
  | zero => rfl
  | succ width ih => rw [littleEndian, List.length_cons, ih]

theorem naturalOf_littleEndian (width n : ℕ) :
    naturalOf (littleEndian width n) = n % 256 ^ width := by
  induction width generalizing n with
  | zero => rw [littleEndian, naturalOf, pow_zero, Nat.mod_one]
  | succ width ih =>
    have hbyte : n.toUInt8.toNat = n % 256 := rfl
    rw [littleEndian, naturalOf, ih, hbyte, pow_succ', Nat.mod_mul]

theorem naturalOf_littleEndian_of_lt {width n : ℕ} (h : n < 256 ^ width) :
    naturalOf (littleEndian width n) = n := by
  rw [naturalOf_littleEndian, Nat.mod_eq_of_lt h]

theorem length_twosComplement (width : ℕ) (i : ℤ) :
    (twosComplement width i).length = width :=
  length_littleEndian _ _

/-- An integer that fits into the bytes is read back from its two's
complement. -/
theorem integerOf_twosComplement {width : ℕ} {i : ℤ}
    (hlow : -(256 ^ width : ℕ) ≤ 2 * i) (hhigh : 2 * i < (256 ^ width : ℕ)) :
    integerOf (twosComplement width i) = i := by
  have hpos : 0 < 256 ^ width := by positivity
  have hcast : ((i % (256 ^ width : ℕ)).toNat : ℤ) = i % (256 ^ width : ℕ) :=
    Int.toNat_of_nonneg (Int.emod_nonneg _ (by exact_mod_cast hpos.ne'))
  have hlt : (i % (256 ^ width : ℕ)).toNat < 256 ^ width := by
    have :=
      Int.emod_lt_of_pos i
        (by exact_mod_cast hpos : (0 : ℤ) < (256 ^ width : ℕ))
    omega
  rw [integerOf, length_twosComplement]
  change Int.bmod (naturalOf (littleEndian width (i % (256 ^ width : ℕ)).toNat))
    (256 ^ width) = i
  rw [naturalOf_littleEndian_of_lt hlt, hcast, Int.emod_bmod]
  exact Int.bmod_eq_of_le_mul_two (by omega) (by omega)

/-! ## Readers -/

/-- A reader takes these bytes off the front, whatever follows them, and makes
this of them. -/
def Takes {α : Type} (reader : ByteReader α) (bytes : List UInt8) (a : α) :
    Prop :=
  ∀ rest, reader (bytes ++ rest) = some (a, rest)

section Readers

variable {α β : Type} {reader : ByteReader α} {next : α → ByteReader β}
variable {bytes more : List UInt8}
  {a : α} {b : β}

theorem takes_pure (a : α) : Takes (pure a) [] a :=
  fun _ => rfl

theorem Takes.bind (h : Takes reader bytes a) (hnext : Takes (next a) more b) :
    Takes (reader >>= next) (bytes ++ more) b := by
  intro rest
  change (reader (bytes ++ more ++ rest) >>= fun taken =>
    next taken.1 taken.2) = _
  rw [List.append_assoc, h]
  exact hnext rest

theorem takes_take {count : ℕ} (h : bytes.length = count) :
    Takes (ByteReader.take count) bytes bytes := by
  intro rest
  rw [ByteReader.take, ← h, List.take_left, List.drop_left]
  exact if_pos rfl

theorem takes_skip {count : ℕ} (h : bytes.length = count) :
    Takes (ByteReader.skip count) bytes () := by
  intro rest
  change (ByteReader.take count (bytes ++ rest) >>= fun taken =>
    some ((), taken.2)) = _
  rw [takes_take h]
  rfl

theorem takes_natural {width n : ℕ} (h : n < 256 ^ width) :
    Takes (ByteReader.natural width) (littleEndian width n) n := by
  intro rest
  change (ByteReader.take width (littleEndian width n ++ rest) >>= fun taken =>
    some (naturalOf taken.1, taken.2)) = _
  rw [takes_take (length_littleEndian width n)]
  exact congrArg (fun n => some (n, rest)) (naturalOf_littleEndian_of_lt h)

end Readers

/-! ## The format chunk -/

/-- The format of what is written. -/
def monoFormat (rate : ℕ) : Format where
  channels := 1
  rate := rate
  width := 2
  bits := 16
  encoding := .integer

/-- The fields of the format chunk of what is written. -/
def formatFields (rate : ℕ) : List UInt8 :=
  littleEndian 2 Format.integerTag ++
    (littleEndian 2 1 ++ (littleEndian 4 rate ++
      (littleEndian 4 (2 * rate) ++ (littleEndian 2 2 ++ littleEndian 2 16))))

/-- What they say. -/
def monoHead (rate : ℕ) : Format.Head where
  tag := Format.integerTag
  channels := 1
  rate := rate
  bytesPerSecond := 2 * rate
  frame := 2
  bits := 16

theorem takes_head {rate : ℕ} (h : 2 * rate < 2 ^ 32) :
    Takes Format.Head.read (formatFields rate) (monoHead rate) := by
  rw [formatFields, ← List.append_nil (littleEndian 2 16)]
  exact .bind (takes_natural (by decide)) <|
    .bind (takes_natural (by decide)) <|
    .bind (takes_natural (by omega)) <|
    .bind (takes_natural (by omega)) <|
    .bind (takes_natural (by decide)) <|
    .bind (takes_natural (by decide)) <|
    takes_pure _

theorem monoHead_consistent (rate : ℕ) : (monoHead rate).Consistent := by
  simp [Format.Head.Consistent, Format.Head.width, monoHead]

theorem format_monoHead (rate : ℕ) :
    (monoHead rate).format .integer = monoFormat rate := by
  simp [Format.Head.format, Format.Head.width, monoHead, monoFormat]

theorem readInteger_short (h : Format.Head) :
    Format.readInteger 16 h = pure (h.format .integer) := by
  unfold Format.readInteger
  simp

theorem takes_format {rate : ℕ} (h : 2 * rate < 2 ^ 32) :
    Takes (Format.read 16) (formatFields rate) (monoFormat rate) := by
  have hread : Format.read 16 = Format.Head.read >>= fun fields =>
      guard fields.Consistent >>= fun _ =>
        if fields.tag = Format.integerTag then Format.readInteger 16 fields
        else if fields.tag = Format.singleTag then Format.readSingle 16 fields
        else if fields.tag = Format.extensibleTag then
          Format.readExtensible 16 fields
        else failure := rfl
  have hrest : Takes (guard (monoHead rate).Consistent >>= fun _ =>
      Format.readInteger 16 (monoHead rate)) [] (monoFormat rate) := by
    rw [guard, if_pos (monoHead_consistent rate), readInteger_short, pure_bind,
      format_monoHead]
    exact takes_pure _
  rw [hread, ← List.append_nil (formatFields rate)]
  exact (takes_head h).bind hrest

/-! ## Whole files -/

section Files

variable {rate length : ℕ} {data rest : List UInt8}

theorem takes_name {text : String} (h : (ascii text).length = 4) :
    Takes (ByteReader.take 4) (ascii text) (ascii text) :=
  takes_take h

theorem findData?_format (budget : ℕ) (h : 2 * rate < 2 ^ 32) :
    findData? (budget + 1) none
        (ascii "fmt " ++ (littleEndian 4 16 ++ (formatFields rate ++ rest))) =
      findData? budget (some (monoFormat rate)) rest := by
  rw [findData?, takes_name (by decide)]
  dsimp only
  rw [takes_natural (by decide)]
  dsimp only
  rw [takes_format h, if_neg (by decide), if_pos rfl]

theorem findData?_data (budget : ℕ) (format : Format) (h : length < 2 ^ 32) :
    findData? (budget + 1) (some format)
        (ascii "data" ++ (littleEndian 4 length ++ data)) =
      some ⟨format, length, data⟩ := by
  rw [findData?, takes_name (by decide)]
  dsimp only
  rw [takes_natural (by omega)]
  dsimp only
  rw [if_pos rfl]
  rfl

/-- A file in the written layout has the data that stand at its end. -/
theorem data?_of_chunks (start data : List UInt8) (hstart : start.length = 4)
    (hrate : 2 * rate < 2 ^ 32) (hlength : length < 2 ^ 32)
    (heven : length % 2 = 0) :
    data? (ascii "RIFF" ++ (start ++ (ascii "WAVE" ++
        (ascii "fmt " ++ (littleEndian 4 16 ++ (formatFields rate ++
          (ascii "data" ++ (littleEndian 4 length ++ data)))))))) =
      some ⟨monoFormat rate, length, data⟩ := by
  have hriff : ∀ rest, ByteReader.take 4 (ascii "RIFF" ++ rest) =
      some (ascii "RIFF", rest) :=
    takes_name (by decide)
  have hskip : ∀ rest, ByteReader.skip 4 (start ++ rest) = some ((), rest) :=
    takes_skip hstart
  have hwave : ∀ rest, ByteReader.take 4 (ascii "WAVE" ++ rest) =
      some (ascii "WAVE", rest) :=
    takes_name (by decide)
  generalize hfile : ascii "RIFF" ++ (start ++ _) = file
  have hlong : 2 ≤ file.length := by
    rw [← hfile, List.length_append]
    exact Nat.le_add_right_of_le (by decide)
  obtain ⟨budget, hbudget⟩ := Nat.exists_eq_add_of_le' hlong
  rw [data?, hbudget, ← hfile]
  simp only [hriff, hskip, hwave, findData?_format _ hrate,
    findData?_data _ _ hlength, Option.bind_eq_bind, Option.bind_some]
  simp [guard, monoFormat, heven, Nat.mod_one]

end Files

/-- The bytes of the samples of a recording. -/
def stored (recording : Recording) : List UInt8 :=
  recording.samples.toList.flatMap fun sample =>
    twosComplement 2 (quantize sample)

theorem length_stored (recording : Recording) :
    (stored recording).length = 2 * recording.samples.size := by
  rw [stored, List.length_flatMap,
    List.map_congr_left fun _ _ => length_twosComplement _ _, List.map_const',
    List.sum_replicate_nat, Array.length_toList, Nat.mul_comm]

/-- A file with the samples of a recording, each of them in 16 bits. -/
def Holds (file : List UInt8) (recording : Recording) : Prop :=
  data? file =
    some ⟨monoFormat recording.rate.toNat, 2 * recording.samples.size,
      stored recording⟩

theorem holds_encode {recording : Recording}
    (hrate : 2 * recording.rate.toNat < 2 ^ 32)
    (hsize : 2 * recording.samples.size < 2 ^ 32) :
    Holds (encode recording) recording := by
  have hencode : encode recording =
      header recording.rate (stored recording).length ++ stored recording := rfl
  rw [Holds, hencode, length_stored]
  simp only [header, List.append_assoc]
  have hdata :=
    data?_of_chunks (littleEndian 4 (36 + 2 * recording.samples.size))
    (stored recording) (length_littleEndian 4 _) hrate hsize
      (Nat.mul_mod_right 2 _)
  simpa only [formatFields, List.append_assoc] using hdata

end PitchFollower.Wave

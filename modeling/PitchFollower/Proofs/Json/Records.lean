import PitchFollower.Json.Record
import PitchFollower.Proofs.Decimal.Readback
import PitchFollower.Proofs.Json.Values

/-!
# Records read back

A codec round trips a value if it reads the value from what it writes for it.  A
record whose fields have distinct names round trips if the values of its fields
do: its members are taken over one by one, and when all of them are, nothing is
left of the defaults.
-/

namespace PitchFollower.Json

/-! ## Codecs -/

/-- What a codec writes for a value is text and stands for that value. -/
structure Codec.RoundTrips {α : Type} (codec : Codec α) (a : α) : Prop where
  writable : IsWritable (codec.write a)
  reads : codec.read? (codec.write a) = some a

namespace Codec

section Text

variable {α : Type} {codec : Codec α} {a : α}

/-- A value is read back from its text. -/
theorem RoundTrips.ofText?_toText (h : codec.RoundTrips a) :
    codec.ofText? (codec.toText a) = some a := by
  rw [ofText?, toText, read?_write h.writable]
  exact h.reads

theorem RoundTrips.read?_of_eq (h : codec.RoundTrips a) {json : Json}
    (hjson : json = codec.write a) : codec.read? json = some a := by
  rw [hjson]
  exact h.reads

end Text

/-! ## Integers -/

theorem isStrict_ofInt (i : ℤ) : IsStrict (.ofInt i) where
  whole c hc := Decimal.isDigit_of_mem_digits hc
  fraction c hc := by cases hc
  lead := by
    by_cases hzero : i.natAbs = 0
    · left
      rw [Numeral.ofInt, hzero, Decimal.digits_zero]
    · exact .inr (Decimal.digits_eq_cons (Nat.pos_of_ne_zero hzero))

theorem isWritable_ofInt (i : ℤ) : IsWritable (.ofInt i) :=
  .number (isStrict_ofInt i)

/-- The digits and the sign of an integer write it. -/
theorem toInt?_ofInt (i : ℤ) : (Numeral.ofInt i).toInt? = some i := by
  have hintegral : (Numeral.ofInt i).IsIntegral := ⟨rfl, rfl⟩
  have hdigits : Decimal.ofDigits (Numeral.ofInt i).whole = i.natAbs :=
    Decimal.ofDigits_digits i.natAbs
  have hnegative : (Numeral.ofInt i).negative = decide (i < 0) := rfl
  rw [Numeral.toInt?, if_pos hintegral, hdigits, hnegative]
  by_cases hsign : i < 0
  · rw [decide_eq_true hsign, if_pos rfl, if_neg (by omega)]
    exact congrArg some (by omega)
  · rw [decide_eq_false hsign, if_neg Bool.false_ne_true]
    exact congrArg some (by omega)

theorem integer_roundTrips {α : Type} {low high : ℤ} {ofInt : ℤ → α}
    {toInt : α → ℤ} {a : α} (hlow : low ≤ toInt a) (hhigh : toInt a ≤ high)
    (h : ofInt (toInt a) = a) :
    (integer low high ofInt toInt).RoundTrips a where
  writable := isWritable_ofInt (toInt a)
  reads := by
    simp only [integer, Json.ofInt, toInt?_ofInt,
      if_pos (And.intro hlow hhigh), h]

theorem byte_roundTrips (b : UInt8) : byte.RoundTrips b := by
  have hmost : b.toNat < 256 := b.toNat_lt
  apply integer_roundTrips
  · omega
  · omega
  · rw [Int.toNat_natCast, Nat.toUInt8_eq, UInt8.ofNat_toNat]

theorem signedByte_roundTrips (b : Int8) : signedByte.RoundTrips b := by
  apply integer_roundTrips
  · exact b.le_toInt
  · exact Int.le_of_lt_add_one b.toInt_lt
  · exact Int8.ofInt_toInt b

theorem word_roundTrips (w : UInt64) : word.RoundTrips w := by
  have hmost : w.toNat < 18446744073709551616 := w.toNat_lt
  apply integer_roundTrips
  · omega
  · omega
  · rw [Int.toNat_natCast, Nat.toUInt64_eq, UInt64.ofNat_toNat]

/-! ## Single precision numbers -/

theorem isDigit_of_mem_zeros (j : ℕ) :
    ∀ c ∈ List.replicate j '0', c.isDigit = true := by
  intro c hc
  rw [List.eq_of_mem_replicate hc]
  rfl

/-- A positive decimal is written without leading zeros: with zeros behind its
digits, with the point among them or before them, or with one digit before the
point and an exponent. -/
theorem isStrict_set {d : Decimal} (hd : 0 < d.significand) :
    IsStrict (Decimal.set .stored d) := by
  have hdigits (c : Char) (hc : c ∈ Decimal.digits d.significand) :
      c.isDigit = true :=
    Decimal.isDigit_of_mem_digits hc
  obtain ⟨c, cs, hcons, hc⟩ := Decimal.digits_eq_cons hd
  unfold Decimal.set
  split_ifs
  · unfold Decimal.setPositional
    dsimp only
    split_ifs with hwhole hkeeps hpoint
    · refine ⟨fun c hc => ?_, isDigit_of_mem_zeros 1,
        .inr ⟨c, _, by rw [hcons, List.cons_append], hc⟩⟩
      exact (List.mem_append.mp hc).elim (hdigits c) (isDigit_of_mem_zeros _ c)
    · exact absurd rfl hkeeps
    · obtain ⟨p, hp⟩ :=
        Nat.exists_eq_succ_of_ne_zero (show d.position.toNat ≠ 0 by omega)
      refine ⟨fun c hc => hdigits c (List.mem_of_mem_take hc),
        fun c hc => hdigits c (List.mem_of_mem_drop hc), .inr ⟨c, cs.take p,
          ?_, hc⟩⟩
      rw [hcons, hp, List.take_succ_cons]
    · refine ⟨isDigit_of_mem_zeros 1, fun c hc => ?_, .inl rfl⟩
      exact (List.mem_append.mp hc).elim (isDigit_of_mem_zeros _ c) (hdigits c)
  · exact ⟨fun c hc => hdigits c (List.mem_of_mem_take hc),
      fun c hc => hdigits c (List.mem_of_mem_drop hc),
      .inr ⟨c, [],
        by
          rw [Decimal.setScientific, hcons, List.take_succ_cons,
            List.take_zero], hc⟩⟩

theorem isStrict_setSingle {x : Float32} (hx : x.isFinite = true) :
    IsStrict (Decimal.setSingle .stored x) := by
  have hstored : IsStrict (Decimal.set .stored (Decimal.stored x)) := by
    by_cases hzero : Single.exact x = 0
    · have hset : Decimal.set .stored ⟨0, 0⟩ = ⟨false, ['0'], ['0'], none⟩ := by
        decide +kernel
      rw [Decimal.stored_of_zero hx hzero, hset]
      exact ⟨isDigit_of_mem_zeros 1, isDigit_of_mem_zeros 1, .inl rfl⟩
    · rw [Decimal.stored_of_ne_zero hx hzero]
      exact isStrict_set (Decimal.isShort_shortest .toEven hx hzero).pos
  exact ⟨hstored.whole, hstored.fraction, hstored.lead⟩

theorem write_single {x : Float32} (hx : x.isFinite = true) :
    single.write x = .number (Decimal.setSingle .stored x) :=
  if_pos hx

/-- Every finite number round trips. -/
theorem single_roundTrips {x : Float32} (hx : x.isFinite = true) :
    single.RoundTrips x := by
  refine ⟨?_, ?_⟩
  · rw [write_single hx]
    exact .number (isStrict_setSingle hx)
  · rw [write_single hx]
    exact Decimal.scaledSingle?_setSingle hx

/-! ## Missing values -/

section Option

variable {α : Type} {codec : Codec α}

theorem option_roundTrips_none : (option codec).RoundTrips none :=
  ⟨.null, rfl⟩

theorem option_roundTrips_some {a : α} (h : codec.RoundTrips a)
    (hne : codec.write a ≠ .null) : (option codec).RoundTrips (some a) where
  writable := h.writable
  reads := by
    change (option codec).read? (codec.write a) = some (some a)
    have hsome : (option codec).read? (codec.write a) =
        (codec.read? (codec.write a)).map some := by
      cases hwrite : codec.write a with
      | null => exact absurd hwrite hne
      | _ => rfl
    rw [hsome, h.reads, Option.map_some]

end Option

end Codec

/-! ## Records -/

section Records

variable {ρ : Type}

/-- A record with the value of a field taken over from the record `r`, as far as
it can be read. -/
def Field.takeOver (r r' : ρ) (field : Field ρ) : ρ :=
  (field.set? r' (field.get r)).getD r'

/-- The value that is written for a field is text and can be taken over. -/
structure Field.RoundTrips (field : Field ρ) (r : ρ) : Prop where
  writable : IsWritable (field.get r)
  sets : ∀ r', field.set? r' (field.get r) = some (field.takeOver r r')

section Of

variable {α : Type} {codec : Codec α} {get : ρ → α} {set : ρ → α → ρ} {r : ρ}

theorem Field.takeOver_of (name : String) (h : codec.RoundTrips (get r))
    (r' : ρ) :
    (Field.of name codec get set).takeOver r r' = set r' (get r) := by
  change ((codec.read? (codec.write (get r))).map (set r')).getD r' = _
  rw [h.reads]
  rfl

theorem Field.roundTrips_of (name : String) (h : codec.RoundTrips (get r)) :
    (Field.of name codec get set).RoundTrips r where
  writable := h.writable
  sets r' := by
    rw [Field.takeOver_of name h]
    change (codec.read? (codec.write (get r))).map (set r') = _
    rw [h.reads, Option.map_some]

end Of

namespace Record

variable {fields : List (Field ρ)} {r : ρ}

/-- The members that are written for some fields. -/
def members (fields : List (Field ρ)) (r : ρ) : List (Option String × Json) :=
  fields.map fun field => (some field.name, field.get r)

theorem write_eq (fields : List (Field ρ)) (r : ρ) :
    write fields r = .object (members fields r) := by
  rw [write, ofMembers, List.map_map]
  rfl

/-- With distinct names, the field of a name is the one that has it. -/
theorem find?_name (hnames : (fields.map (·.name)).Nodup) {field : Field ρ}
    (h : field ∈ fields) :
    fields.find? (·.name == field.name) = some field := by
  induction fields with
  | nil => cases h
  | cons first fields ih =>
    rw [List.map_cons, List.nodup_cons] at hnames
    rcases List.mem_cons.mp h with rfl | htail
    · exact List.find?_cons_of_pos (beq_self_eq_true _)
    · have hne : first.name ≠ field.name := by
        intro heq
        exact hnames.1 (heq ▸ List.mem_map_of_mem htail)
      rw [List.find?_cons_of_neg (by simpa using hne)]
      exact ih hnames.2 htail

/-- No member behind a field names it again. -/
theorem any_members_eq_false {field : Field ρ} {rest : List (Field ρ)}
    (h : field.name ∉ rest.map (·.name)) :
    (members rest r).any (·.1 == some field.name) = false := by
  rw [List.any_eq_false]
  intro m hm heq
  obtain ⟨other, hother, rfl⟩ := List.mem_map.mp hm
  have hname : other.name = field.name := Option.some_inj.mp (beq_iff_eq.mp heq)
  exact h (hname ▸ List.mem_map_of_mem hother)

/-- The members of some of the fields change what these fields hold. -/
theorem setMembers?_members (hnames : (fields.map (·.name)).Nodup)
    (hfields : ∀ field ∈ fields, field.RoundTrips r) {rest : List (Field ρ)}
    (hrest : rest.Sublist fields) (r' : ρ) :
    setMembers? fields r' (members rest r) =
      some (rest.foldl (Field.takeOver r) r') := by
  induction rest generalizing r' with
  | nil => rfl
  | cons field rest ih =>
    have hmem : field ∈ fields := hrest.subset List.mem_cons_self
    have hdistinct := hnames.sublist (hrest.map _)
    rw [List.map_cons, List.nodup_cons] at hdistinct
    have hnone := any_members_eq_false (r := r) hdistinct.1
    rw [members] at hnone
    rw [members, List.map_cons, setMembers?, find?_name hnames hmem]
    dsimp only
    rw [hnone, if_neg Bool.false_ne_true, (hfields field hmem).sets r']
    exact ih ((List.sublist_cons_self field rest).trans hrest) _

/-- A record round trips if all its fields do and nothing is left of the
defaults. -/
theorem codec_roundTrips {defaults : ρ} (hnames : (fields.map (·.name)).Nodup)
    (hfields : ∀ field ∈ fields, field.RoundTrips r)
    (hall : fields.foldl (Field.takeOver r) defaults = r) :
    (codec fields defaults).RoundTrips r := by
  have hwrite : (codec fields defaults).write r = .object (members fields r) :=
    write_eq fields r
  refine ⟨?_, ?_⟩
  · rw [hwrite]
    refine .object ?_ ?_
    · intro m hm
      obtain ⟨field, -, rfl⟩ := List.mem_map.mp hm
      exact ⟨field.name, rfl⟩
    · intro m hm
      obtain ⟨field, hfield, rfl⟩ := List.mem_map.mp hm
      exact (hfields field hfield).writable
  · rw [hwrite]
    change setMembers? fields defaults (members fields r) = some r
    rw [setMembers?_members hnames hfields (List.Sublist.refl fields), hall]

end Record

end Records

end PitchFollower.Json

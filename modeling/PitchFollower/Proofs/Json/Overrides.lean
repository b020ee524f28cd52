import PitchFollower.Json.Record
import PitchFollower.Proofs.Json.Records

/-!
# Records from some of their fields

An object may name some of the fields of a record, in any order and among names
that are not known.  The record that is read differs from its defaults in just
these fields.  The induction is on the members: what is taken over from one of
them is not changed by those behind it, because none of them has its name.
-/

namespace PitchFollower.Json.Record

variable {ρ : Type} {fields : List (Field ρ)} {members : List (String × Json)}

/-- The names of members that are names of fields, in the order of the
members. -/
def named (fields : List (Field ρ)) (members : List (String × Json)) :
    List String :=
  (members.map Prod.fst).filter (· ∈ fields.map (·.name))

/-- The members name exactly the chosen ones of the fields, each once.  Their
other names are not known. -/
def Chooses (fields : List (Field ρ)) (chosen : List String)
    (members : List (String × Json)) : Prop :=
  (named fields members).Perm ((fields.map (·.name)).filter (· ∈ chosen))

instance (chosen : List String) : Decidable (Chooses fields chosen members) :=
  inferInstanceAs (Decidable (List.Perm _ _))

/-- Each member that names the field has a value for it that can be taken over.
The record `override names r` has this value if it is one of the names. -/
def Replaces (field : Field ρ) (members : List (String × Json))
    (override : List String → ρ → ρ) : Prop :=
  ∀ json, (field.name, json) ∈ members →
    ∀ names r, ∃ r', field.set? r json = some r' ∧
    override names r' = override (field.name :: names) r

/-- Values for the fields of a record, one of which is taken over from each
member that names a field.  The record `override names r` has these values in
the named fields and those of `r` in the others. -/
structure Overriding (fields : List (Field ρ)) (members : List (String × Json))
    (override : List String → ρ → ρ) : Prop where
  none : ∀ r, override [] r = r
  congr : ∀ {names names' : List String},
    (∀ field ∈ fields, field.name ∈ names ↔ field.name ∈ names') →
    ∀ r, override names r = override names' r
  replaces : ∀ field ∈ fields, Replaces field members override

theorem replaces_of {α : Type} {name : String} {codec : Codec α} {get : ρ → α}
    {set : ρ → α → ρ} {a : α} {override : List String → ρ → ρ}
    (hread : ∀ json, (name, json) ∈ members → codec.read? json = some a)
    (hset : ∀ names r, override names (set r a) = override (name :: names) r) :
    Replaces (.of name codec get set) members override := by
  intro json hjson names r
  refine ⟨set r a, ?_, hset names r⟩
  change (codec.read? json).map (set r) = _
  rw [hread json hjson, Option.map_some]

section Chooses

variable {chosen : List String}

/-- No field is named twice. -/
theorem Chooses.nodup (h : Chooses fields chosen members)
    (hnames : (fields.map (·.name)).Nodup) : (named fields members).Nodup :=
  h.nodup_iff.mpr (hnames.filter _)

theorem Chooses.mem_iff (h : Chooses fields chosen members) {field : Field ρ}
    (hfield : field ∈ fields) :
    field.name ∈ members.map Prod.fst ↔ field.name ∈ chosen := by
  have hknown : field.name ∈ fields.map (·.name) := List.mem_map_of_mem hfield
  have hiff := List.Perm.mem_iff (a := field.name) h
  rw [named, List.mem_filter, List.mem_filter] at hiff
  simpa [hknown] using hiff

end Chooses

section Members

variable {override : List String → ρ → ρ}

/-- A name that is not known changes nothing. -/
theorem Overriding.override_unknown (h : Overriding fields members override)
    {name : String} (hname : ∀ field ∈ fields, field.name ≠ name)
    (names : List String) (r : ρ) :
    override (name :: names) r = override names r := by
  apply h.congr
  intro field hfield
  rw [List.mem_cons, or_iff_right (hname field hfield)]

theorem named_cons_of_mem {name : String} {json : Json}
    {rest : List (String × Json)} (h : name ∈ fields.map (·.name)) :
    named fields ((name, json) :: rest) = name :: named fields rest := by
  exact List.filter_cons_of_pos (decide_eq_true h)

theorem named_cons_sublist (m : String × Json) (rest : List (String × Json)) :
    (named fields rest).Sublist (named fields (m :: rest)) :=
  List.Sublist.filter _ (List.sublist_cons_self _ _)

/-- A field that is named once is not named by the members behind. -/
theorem any_eq_false_of_nodup {name : String} {json : Json}
    {rest : List (String × Json)} (hname : name ∈ fields.map (·.name))
    (h : (named fields ((name, json) :: rest)).Nodup) :
    (rest.map fun (name, value) => (some name, value)).any (·.1 == some name) =
      false := by
  rw [named_cons_of_mem hname, List.nodup_cons, named, List.mem_filter] at h
  rw [List.any_eq_false]
  intro m hm heq
  obtain ⟨⟨other, value⟩, hmem, rfl⟩ := List.mem_map.mp hm
  obtain rfl : other = name := Option.some_inj.mp (beq_iff_eq.mp heq)
  exact h.1 ⟨List.mem_map_of_mem (f := Prod.fst) hmem, decide_eq_true hname⟩

/-- The record that members make of another one has their values in the fields
they name. -/
theorem Overriding.setMembers?_eq (h : Overriding fields members override)
    {rest : List (String × Json)} (hrest : rest ⊆ members)
    (honce : (named fields rest).Nodup) (r : ρ) :
    setMembers? fields r (rest.map fun (name, value) => (some name, value)) =
      some (override (rest.map Prod.fst) r) := by
  induction rest generalizing r with
  | nil => exact congrArg some (h.none r).symm
  | cons m rest ih =>
    obtain ⟨name, json⟩ := m
    have htail := ih (fun m hm => hrest (List.mem_cons_of_mem _ hm))
      (honce.sublist (named_cons_sublist _ _))
    rw [List.map_cons, List.map_cons, setMembers?]
    cases hfind : fields.find? (·.name == name) with
    | none =>
      have hunknown (field : Field ρ) (hfield : field ∈ fields) :
          field.name ≠ name := by
        simpa using List.find?_eq_none.mp hfind field hfield
      rw [htail, h.override_unknown hunknown]
    | some field =>
      have hfield := List.mem_of_find?_eq_some hfind
      obtain rfl : field.name = name := by simpa using List.find?_some hfind
      obtain ⟨r', hset, hoverride⟩ :=
        h.replaces field hfield json (hrest List.mem_cons_self)
        (rest.map Prod.fst) r
      dsimp only
      rw [any_eq_false_of_nodup (List.mem_map_of_mem hfield) honce,
        if_neg Bool.false_ne_true, hset]
      exact (htail r').trans (congrArg some hoverride)

/-- An object that names the chosen fields makes a record with other values in
these. -/
theorem Overriding.read?_eq_override (h : Overriding fields members override)
    {chosen : List String} (hnames : (fields.map (·.name)).Nodup)
    (hchosen : Chooses fields chosen members) (r : ρ) :
    read? fields r (.ofMembers members) = some (override chosen r) := by
  have hmembers :=
    h.setMembers?_eq (List.Subset.refl members) (hchosen.nodup hnames) r
  rw [h.congr fun field hfield => hchosen.mem_iff hfield] at hmembers
  exact hmembers

end Members

end PitchFollower.Json.Record

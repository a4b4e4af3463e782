import Errata.Json.Record
import Mathlib.Data.List.Induction
import Mathlib.Data.List.Nodup
import Mathlib.Data.List.Sort

/-!
# Members and fields

The members of an object sorted by key are those that a lookup finds, each key once. The fields of
a record are found by their names: in an object by its members, in a list by their position.
-/
namespace Errata.Json

section Members

variable {β : Type}

/-- The keys increase, so no key stands twice. -/
def IsSorted (members : List (Text × β)) : Prop := members.Pairwise fun m n => m.1 < n.1

theorem mem_place {key : Text} {value : β} {members : List (Text × β)} (h : IsSorted members)
    {m : Text × β} :
    m ∈ place key value members ↔ m = (key, value) ∨ m ∈ members ∧ m.1 ≠ key := by
  induction members with
  | nil => simp [place]
  | cons n ns ih =>
    obtain ⟨hn, hns⟩ := List.pairwise_cons.mp h
    have hother : ∀ x ∈ n :: ns, key < n.1 → x.1 ≠ key := by
      intro x hx hlt heq
      rcases List.mem_cons.mp hx with rfl | hx
      · exact List.lt_irrefl _ (heq ▸ hlt)
      · exact List.lt_irrefl _ (List.lt_trans (heq ▸ hlt) (hn x hx))
    rw [place]
    split
    · next hlt =>
      rw [List.mem_cons]
      exact or_congr_right (and_iff_left_of_imp fun hx => hother m hx hlt).symm
    · split
      · next hlt =>
        have hne : n.1 ≠ key := fun heq => List.lt_irrefl _ (heq ▸ hlt)
        rw [List.mem_cons, ih hns, List.mem_cons]
        constructor
        · rintro (rfl | hm | hm)
          · exact .inr ⟨.inl rfl, hne⟩
          · exact .inl hm
          · exact .inr ⟨.inr hm.1, hm.2⟩
        · rintro (hm | ⟨rfl | hm, hkey⟩)
          · exact .inr (.inl hm)
          · exact .inl rfl
          · exact .inr (.inr ⟨hm, hkey⟩)
      · next hkn hnk =>
        have heq : n.1 = key := List.le_antisymm (List.not_lt.mp hkn) (List.not_lt.mp hnk)
        have hrest : ∀ x ∈ ns, x.1 ≠ key := by
          intro x hx hkey
          exact List.lt_irrefl _ (hkey ▸ heq ▸ hn x hx)
        rw [List.mem_cons, List.mem_cons]
        constructor
        · rintro (hm | hm)
          · exact .inl hm
          · exact .inr ⟨.inr hm, hrest m hm⟩
        · rintro (hm | ⟨rfl | hm, hkey⟩)
          · exact .inl hm
          · exact absurd heq hkey
          · exact .inr hm

theorem isSorted_place {key : Text} {value : β} {members : List (Text × β)}
    (h : IsSorted members) : IsSorted (place key value members) := by
  induction members with
  | nil => simp [place, IsSorted]
  | cons n ns ih =>
    obtain ⟨hn, hns⟩ := List.pairwise_cons.mp h
    rw [place]
    split
    · next hlt =>
      refine List.pairwise_cons.mpr ⟨fun x hx => ?_, h⟩
      rcases List.mem_cons.mp hx with rfl | hx
      · exact hlt
      · exact List.lt_trans hlt (hn x hx)
    · split
      · next hlt =>
        refine List.pairwise_cons.mpr ⟨fun x hx => ?_, ih hns⟩
        rcases (mem_place hns).mp hx with rfl | ⟨hx, -⟩
        · exact hlt
        · exact hn x hx
      · next hkn hnk =>
        have heq : n.1 = key := List.le_antisymm (List.not_lt.mp hkn) (List.not_lt.mp hnk)
        exact List.pairwise_cons.mpr ⟨fun x hx => heq ▸ hn x hx, hns⟩

theorem sortMembers_concat (members : List (Text × β)) (m : Text × β) :
    sortMembers (members ++ [m]) = place m.1 m.2 (sortMembers members) := by
  simp [sortMembers, List.foldl_append]

theorem isSorted_sortMembers (members : List (Text × β)) : IsSorted (sortMembers members) := by
  induction members using List.reverseRecOn with
  | nil => exact List.Pairwise.nil
  | append_singleton members m ih =>
    rw [sortMembers_concat]
    exact isSorted_place ih

theorem IsSorted.ext {members members' : List (Text × β)} (h : IsSorted members)
    (h' : IsSorted members') (hmem : ∀ m, m ∈ members ↔ m ∈ members') : members = members' := by
  have hasymm : ∀ m n : Text × β, m.1 < n.1 → ¬ n.1 < m.1 :=
    fun m n hmn hnm => List.lt_irrefl _ (List.lt_trans hmn hnm)
  have : Std.Antisymm fun m n : Text × β => m.1 < n.1 :=
    ⟨fun m n hmn hnm => absurd hnm (hasymm m n hmn)⟩
  have : Std.Irrefl fun m n : Text × β => m.1 < n.1 := ⟨fun m => List.lt_irrefl m.1⟩
  exact List.Pairwise.eq_of_mem_iff h h' hmem

end Members

/-- The sorted members are the last ones of each key. -/
theorem mem_sortMembers {members : List (Text × Json)} {key : Text} {j : Json} :
    (key, j) ∈ sortMembers members ↔ field? key (.object members) = some j := by
  induction members using List.reverseRecOn with
  | nil => simp [sortMembers, field?]
  | append_singleton members m ih =>
    rw [sortMembers_concat, mem_place (isSorted_sortMembers members), ih]
    simp only [field?, List.reverse_append, List.reverse_singleton, List.singleton_append,
      List.find?_cons]
    by_cases hkey : m.1 = key
    · simp [hkey, eq_comm]
    · simp [hkey, Ne.symm hkey, Prod.ext_iff]

/-- What the fields with these names are: in an object, the members of these names, if none of them
stands twice; in a list, its items in the order of the names, if there are no more of them. -/
inductive HasFields (names : List Text) : Json → (Text → Option Json) → Prop
  | members {members : List (Text × Json)}
      (once : ∀ name ∈ names, (members.filter fun m => m.1 == name).length ≤ 1) :
      HasFields names (.object members) fun name => field? name (.object members)
  | items {items : List Json} (bound : items.length ≤ names.length) :
      HasFields names (.array items) fun name => items[names.idxOf name]?

theorem HasFields.of_nodup {members : List (Text × Json)} (h : (members.map (·.1)).Nodup)
    (names : List Text) :
    HasFields names (.object members) fun name => field? name (.object members) := by
  refine .members fun name _ => ?_
  have hcount := List.nodup_iff_count_le_one.mp h name
  rwa [List.count, List.countP_map, List.countP_eq_length_filter] at hcount

theorem HasFields.eq_field? {names : List Text} {members : List (Text × Json)}
    {field : Text → Option Json} (h : HasFields names (.object members) field) :
    field = fun name => field? name (.object members) := by
  cases h
  rfl

/-- Of members with a key of which there is one at most, the first is the last. -/
theorem find?_eq_field? {members : List (Text × Json)} {name : Text}
    (h : (members.filter fun m => m.1 == name).length ≤ 1) :
    (members.find? fun m => m.1 == name).map (·.2) = field? name (.object members) := by
  have hlast : field? name (.object members) =
      (members.filter fun m => m.1 == name).getLast?.map (·.2) := by
    simp only [field?, List.getLast?_eq_head?_reverse, ← List.filter_reverse, List.head?_filter,
      beq_eq_decide]
  rw [hlast, ← List.head?_filter]
  generalize (members.filter fun m => m.1 == name) = named at h
  match named, h with
  | [], _ => rfl
  | [m], _ => rfl

theorem fields?_eq_some_iff {names : List Text} (hnames : names.Nodup) {j : Json}
    {values : List (Option Json)} :
    fields? names j = some values ↔
      ∃ field, HasFields names j field ∧ values = names.map field := by
  cases j with
  | object members =>
    rw [fields?]
    split
    · next hall =>
      have honce : ∀ name ∈ names, (members.filter fun m => m.1 == name).length ≤ 1 := by
        simpa using hall
      have hvalues : (names.map fun name => (members.find? fun m => m.1 == name).map (·.2)) =
          names.map fun name => field? name (.object members) :=
        List.map_congr_left fun name hname => find?_eq_field? (honce name hname)
      rw [hvalues, Option.some_inj]
      constructor
      · rintro rfl
        exact ⟨_, .members honce, rfl⟩
      · rintro ⟨field, hfield, rfl⟩
        rw [hfield.eq_field?]
    · next hall =>
      refine ⟨fun h => by simp at h, fun ⟨field, hfield, _⟩ => ?_⟩
      obtain ⟨honce⟩ := hfield
      exact absurd (by simpa using honce) hall
  | array items =>
    rw [fields?]
    split
    · next hbound =>
      have hvalues : items.map some ++ List.replicate (names.length - items.length) none =
          names.map fun name => items[names.idxOf name]? := by
        refine List.ext_getElem (by simp; omega) fun i _ hi => ?_
        rw [List.length_map] at hi
        rw [List.getElem_map, hnames.idxOf_getElem i hi]
        by_cases hitem : i < items.length <;> simp [List.getElem_append, hitem]
      rw [hvalues, Option.some_inj]
      constructor
      · rintro rfl
        exact ⟨_, .items hbound, rfl⟩
      · rintro ⟨field, ⟨_⟩, rfl⟩
        rfl
    · next hbound =>
      refine ⟨fun h => by simp at h, fun ⟨field, hfield, _⟩ => ?_⟩
      obtain _ | ⟨hbound'⟩ := hfield
      exact absurd hbound' hbound
  | _ =>
    refine ⟨fun h => by simp [fields?] at h, fun ⟨field, hfield, _⟩ => ?_⟩
    cases hfield

def IsText (j : Json) : Prop := ∃ t, j = .string t

def IsNat (j : Json) : Prop := ∃ n, n < UInt64.size ∧ j = nat n

def IsListOf (P : Json → Prop) (j : Json) : Prop :=
  ∃ items, j = .array items ∧ ∀ item ∈ items, P item

def IsOptional (P : Json → Prop) (j : Json) : Prop := j = .null ∨ P j

theorem text?_eq_some_iff {j : Json} {t : Text} : text? j = some t ↔ j = .string t := by
  cases j <;> simp [text?]

theorem isSome_text? {j : Json} : (text? j).isSome ↔ IsText j := by
  simp only [Option.isSome_iff_exists, text?_eq_some_iff, IsText]

theorem nat?_eq_some_iff {j : Json} {n : ℕ} : nat? j = some n ↔ n < UInt64.size ∧ j = nat n := by
  constructor
  · intro h
    unfold nat? at h
    split at h
    · split at h
      · next m hm =>
        obtain rfl := Option.some.inj h
        exact ⟨hm, rfl⟩
      · simp at h
    · simp at h
  · rintro ⟨hn, rfl⟩
    exact if_pos hn

theorem isSome_nat? {j : Json} : (nat? j).isSome ↔ IsNat j := by
  simp only [Option.isSome_iff_exists, nat?_eq_some_iff, IsNat]

theorem nat_inj {m n : ℕ} : nat m = nat n ↔ m = n := by
  simp [nat]

theorem isNat_nat {n : ℕ} : IsNat (nat n) ↔ n < UInt64.size := by
  constructor
  · rintro ⟨m, hm, heq⟩
    obtain rfl := nat_inj.mp heq
    exact hm
  · exact fun hn => ⟨n, hn, rfl⟩

theorem isSome_list? {α : Type} {read : Json → Option α} {P : Json → Prop}
    (h : ∀ j, (read j).isSome ↔ P j) {j : Json} : (list? read j).isSome ↔ IsListOf P j := by
  have hmapM : ∀ items : List Json, (items.mapM read).isSome ↔ ∀ item ∈ items, P item := by
    intro items
    induction items with
    | nil => simp
    | cons item items ih =>
      rw [List.mapM_cons, List.forall_mem_cons, ← h item, ← ih]
      cases read item <;> cases items.mapM read <;> simp
  cases j <;> simp [list?, IsListOf, hmapM]

theorem list?_nat?_eq_some_iff {j : Json} {ns : List ℕ} :
    list? nat? j = some ns ↔ (∀ n ∈ ns, n < UInt64.size) ∧ j = .array (ns.map nat) := by
  have hmapM : ∀ items : List Json, items.mapM nat? = some ns ↔
      (∀ n ∈ ns, n < UInt64.size) ∧ items = ns.map nat := by
    intro items
    induction items generalizing ns with
    | nil => cases ns <;> simp
    | cons item items ih =>
      rw [List.mapM_cons]
      simp only [Option.bind_eq_bind, Option.bind_eq_some_iff, nat?_eq_some_iff, ih,
        Option.pure_def, Option.some.injEq]
      constructor
      · rintro ⟨n, ⟨hn, rfl⟩, ms, ⟨hms, rfl⟩, rfl⟩
        exact ⟨List.forall_mem_cons.mpr ⟨hn, hms⟩, rfl⟩
      · rintro ⟨hns, heq⟩
        obtain ⟨n, ms, rfl, rfl, rfl⟩ := List.map_eq_cons_iff.mp heq.symm
        obtain ⟨hn, hms⟩ := List.forall_mem_cons.mp hns
        exact ⟨n, ⟨hn, rfl⟩, ms, ⟨hms, rfl⟩, rfl⟩
  cases j <;> simp [list?, hmapM]

section Fields

variable {α : Type} {read : Json → Option α} {P : Json → Prop} {field : Option Json}

theorem isSome_required (h : ∀ j, (read j).isSome ↔ P j) :
    (required read field).isSome ↔ ∃ j, field = some j ∧ P j := by
  cases field <;> simp [required, h]

theorem required_eq_some_iff {a : α} :
    required read field = some a ↔ ∃ j, field = some j ∧ read j = some a :=
  Option.bind_eq_some_iff

theorem eq_some_iff_of_optional {value : Option α} (h : optional read field = some value)
    (hnull : read .null = none) {a : α} :
    value = some a ↔ ∃ j, field = some j ∧ read j = some a := by
  unfold optional at h
  split at h
  · simp_all [eq_comm]
  · simp_all [eq_comm]
  · next j _ =>
    obtain ⟨b, hb, rfl⟩ := Option.map_eq_some_iff.mp h
    simp [hb]

theorem isSome_optional (h : ∀ j, (read j).isSome ↔ P j) :
    (optional read field).isSome ↔ ∀ j, field = some j → IsOptional P j := by
  unfold optional
  split <;> simp_all [IsOptional]

theorem isSome_defaulting (h : ∀ j, (read j).isSome ↔ P j) {absent : α} :
    (defaulting absent read field).isSome ↔ ∀ j, field = some j → P j := by
  cases field <;> simp [defaulting, h]

end Fields

end Errata.Json

import CloudTemplate.Json.Decode
import CloudTemplate.Proofs.Json.Compact
import CloudTemplate.Proofs.Outcome
import CloudTemplate.Proofs.Tree.Entries
/-! Values that trees encode, for the readers of values, of entries and of records; and what holds of every value that a
reader can find. -/
namespace CloudTemplate.Json

structure Encodes {α : Type} (decode : Node → Except Fault α) (t : Tree) (x : α) : Prop where
  numberless : IsNumberless t
  decode_eq : ∀ node, node.Denotes t → decode node = .ok x

/-- How entries fill a record: they come in the order of its fields, and each is read into the record that the ones
before it have left. -/
inductive Fills {σ : Type} : List (Field σ) → σ → List (String × Tree) → σ → Prop
  | nil {record : σ} : Fills [] record [] record
  | skip {field : Field σ} {fields : List (Field σ)} {record final : σ} {entries : List (String × Tree)}
      (h : Fills fields record entries final) : Fills (field :: fields) record entries final
  | write {field : Field σ} {fields : List (Field σ)} {record next final : σ} {t : Tree}
      {entries : List (String × Tree)} (hfield : Encodes (fun node => field.decode node record) t next)
      (h : Fills fields next entries final) : Fills (field :: fields) record ((field.name, t) :: entries) final

theorem isNumberless_object {entries : Entries Tree} (h : ∀ e ∈ entries, IsNumberless e.2) :
    IsNumberless (.object entries) := by
  intro n hholds
  cases hholds with
  | entry hmem hvalue => exact h _ hmem n hvalue

theorem encodes_string (s : String) : Encodes decodeString (.string s) s where
  numberless n h := nomatch h
  decode_eq node h := by
    cases h
    rfl

theorem encodes_bool (b : Bool) : Encodes decodeBool (.bool b) b where
  numberless n h := nomatch h
  decode_eq node h := by
    cases h
    rfl

variable {α : Type} {decode : Node → Except Fault α} {t : Tree} {x : α}

theorem Encodes.some (h : Encodes decode t x) (hnull : t ≠ .null) : Encodes (decodeOption decode) t (some x) where
  numberless := h.numberless
  decode_eq node hnode := by
    have hdecode := h.decode_eq node hnode
    cases hnode with
    | null => exact absurd rfl hnull
    | _ => exact congrArg (Except.map Option.some) hdecode

theorem Encodes.map {β : Type} (f : α → β) (h : Encodes decode t x) :
    Encodes (fun node => (decode node).map f) t (f x) where
  numberless := h.numberless
  decode_eq node hnode := by
    rw [h.decode_eq node hnode]
    rfl

theorem decodeEntriesFrom_eq {encode : α → Tree} {nodes : List (Label × Node)} {seen entries : Entries α}
    (hkeys : (seen ++ entries).keys.Nodup) (hvalues : ∀ e ∈ entries, Encodes decode (encode e.2) e.2)
    (hnodes : EntriesDenote nodes (entries.map fun e => (e.1, encode e.2))) :
    decodeEntriesFrom decode seen nodes = .ok (seen ++ entries) := by
  induction entries generalizing seen nodes with
  | nil =>
    cases hnodes
    rw [List.append_nil]
    rfl
  | cons e entries ih =>
    obtain ⟨key, value⟩ := e
    rw [List.forall_mem_cons] at hvalues
    cases hnodes with
    | @cons after node nodes _ _ _ hnode hrest =>
      have hfresh : key ∉ seen.keys := by
        intro hmem
        rw [Entries.keys, List.map_append] at hkeys
        exact List.disjoint_of_nodup_append hkeys hmem List.mem_cons_self
      have hnext : (seen ++ [(key, value)] ++ entries).keys.Nodup := by
        rwa [List.append_assoc, List.singleton_append]
      have hdecode : decode node = .ok value := hvalues.1.decode_eq node hnode
      have hrest := ih hnext hvalues.2 hrest
      rw [List.append_assoc, List.singleton_append, ← Entries.insert_of_not_mem hfresh] at hrest
      exact bind_eq_ok_iff.2 ⟨key, rfl, bind_eq_ok_iff.2 ⟨value, hdecode, hrest⟩⟩

theorem encodes_entries {encode : α → Tree} {entries : Entries α} (hkeys : entries.keys.Nodup)
    (hvalues : ∀ e ∈ entries, Encodes decode (encode e.2) e.2) :
    Encodes (decodeEntries decode) (.object (entries.map fun e => (e.1, encode e.2))) entries where
  numberless := isNumberless_object (List.forall_mem_map.2 fun e he => (hvalues e he).numberless)
  decode_eq node hnode := by
    cases hnode with
    | object hnodes =>
      rw [decodeEntries, decodeEntriesFrom_eq (List.nil_append entries ▸ hkeys) hvalues hnodes]
      rfl

section

variable {σ : Type}

theorem Fills.isNumberless {fields : List (Field σ)} {record final : σ} {entries : Entries Tree}
    (h : Fills fields record entries final) : ∀ e ∈ entries, IsNumberless e.2 := by
  induction h with
  | nil => exact fun _ h => absurd h List.not_mem_nil
  | skip _ ih => exact ih
  | write hfield _ ih => exact List.forall_mem_cons.2 ⟨hfield.numberless, ih⟩

theorem find?_name {fields : List (Field σ)} (hnames : (fields.map Field.name).Nodup) {field : Field σ}
    (hmem : field ∈ fields) : fields.find? (fun other => other.name == field.name) = some field := by
  induction fields with
  | nil => exact absurd hmem List.not_mem_nil
  | cons other fields ih =>
    rw [List.map_cons, List.nodup_cons] at hnames
    obtain rfl | hmem := List.mem_cons.1 hmem
    · exact List.find?_cons_of_pos (beq_self_eq_true _)
    · have hne : other.name ≠ field.name := fun heq => hnames.1 (heq ▸ List.mem_map_of_mem hmem)
      rw [List.find?_cons_of_neg (by simpa using hne), ih hnames.2 hmem]

/-- Entries in the order of the fields are read into the record that they fill. -/
theorem readNamed_eq {all fields : List (Field σ)} (hnames : (all.map Field.name).Nodup)
    (hsub : ∀ field ∈ fields, field ∈ all) {record final : σ} {entries : Entries Tree}
    (h : Fills fields record entries final) {nodes : List (Label × Node)} (hnodes : EntriesDenote nodes entries)
    {seen : List String} (hseen : (seen ++ fields.map Field.name).Nodup) :
    ∃ after, readNamed all seen record nodes = .ok (after, final) := by
  -- Along the fields: those that are left and those that were seen never have a name in common.
  induction h generalizing nodes seen with
  | nil =>
    cases hnodes
    exact ⟨seen, rfl⟩
  | skip _ ih =>
    rw [List.forall_mem_cons] at hsub
    refine ih hsub.2 hnodes (hseen.sublist ?_)
    exact List.Sublist.append_left (List.sublist_cons_self _ _) seen
  | @write field fields record next final t entries hfield _ ih =>
    rw [List.forall_mem_cons] at hsub
    cases hnodes with
    | @cons after node nodes _ _ _ hnode hrest =>
      have hfind := find?_name hnames hsub.1
      have hnext : (field.name :: seen ++ fields.map Field.name).Nodup := List.perm_middle.nodup_iff.1 hseen
      have hfresh : seen.contains field.name = false := by
        simpa using mt (List.mem_append_left _) (List.nodup_cons.1 hnext).1
      obtain ⟨final, hfinal⟩ := ih hsub.2 hrest hnext
      refine ⟨final, bind_eq_ok_iff.2 ⟨field.name, rfl, ?_⟩⟩
      simp only [hfind, hfresh]
      exact bind_eq_ok_iff.2 ⟨next, hfield.decode_eq node hnode, hfinal⟩

/-- A record that may lack any of its fields is read from the entries that fill it. -/
theorem encodes_record {shape : Shape σ} (hnames : (shape.fields.map Field.name).Nodup)
    (hoptional : ∀ field ∈ shape.fields, field.required = false) {entries : Entries Tree} {record : σ}
    (h : Fills shape.fields shape.blank entries record) : Encodes (decodeRecord shape) (.object entries) record where
  numberless := isNumberless_object h.isNumberless
  decode_eq node hnode := by
    cases hnode with
    | @object _ nodes _ stop hnodes =>
      have hread : ∃ seen, readNamed shape.fields [] shape.blank nodes = .ok (seen, record) :=
        readNamed_eq hnames (fun _ h => h) h hnodes hnames
      obtain ⟨seen, hread⟩ := hread
      have hcomplete : shape.fields.find? (fun field => field.required && !seen.contains field.name) = none := by
        rw [List.find?_eq_none]
        intro field hfield
        simp [hoptional field hfield]
      refine bind_eq_ok_iff.2 ⟨(seen, record), hread, bind_eq_ok_iff.2 ⟨stop, rfl, ?_⟩⟩
      simp only [hcomplete]
      rfl

theorem Fills.optional {fields : List (Field σ)} {name : String} {put : α → σ → σ} {record final : σ} {t : Tree}
    {entries : Entries Tree} (hvalue : Encodes decode t x) (h : Fills fields (put x record) entries final) :
    Fills (.optional name decode put :: fields) record ((name, t) :: entries) final :=
  .write (hvalue.map fun x => put x record) h

end

/-- A value that a tree encodes is read from its text. -/
theorem Encodes.readWith (h : Encodes decode t x) : readWith decode t.compact = .ok x := by
  obtain ⟨root, hread, hroot⟩ := read_compact h.numberless
  rw [Json.readWith, hread]
  simp only [h.decode_eq root hroot]
  rfl

/-- Entries that are read have distinct keys, and values that can be read. -/
theorem of_decodeEntriesFrom {p : α → Prop} (hvalue : ∀ node x, decode node = .ok x → p x)
    {nodes : List (Label × Node)} {seen entries : Entries α} (hkeys : seen.keys.Nodup) (hseen : ∀ e ∈ seen, p e.2)
    (h : decodeEntriesFrom decode seen nodes = .ok entries) : entries.keys.Nodup ∧ ∀ e ∈ entries, p e.2 := by
  induction nodes generalizing seen with
  | nil =>
    cases h
    exact ⟨hkeys, hseen⟩
  | cons entry nodes ih =>
    obtain ⟨name, -, h⟩ := bind_eq_ok_iff.1 h
    obtain ⟨x, hx, h⟩ := bind_eq_ok_iff.1 h
    refine ih (Entries.nodup_keys_insert hkeys name x) (fun e he => ?_) h
    obtain rfl | he := Entries.mem_insert he
    · exact hvalue _ x hx
    · exact hseen e he

theorem of_decodeEntries {p : α → Prop} (hvalue : ∀ node x, decode node = .ok x → p x) {node : Node}
    {entries : Entries α} (h : decodeEntries decode node = .ok entries) :
    entries.keys.Nodup ∧ ∀ e ∈ entries, p e.2 := by
  cases node with
  | object start nodes stop =>
    obtain ⟨xs, hxs, h⟩ := bind_eq_ok_iff.1 h
    obtain ⟨_, -, h⟩ := bind_eq_ok_iff.1 h
    cases h
    have hkeys : Entries.keys ([] : Entries α) = [] := rfl
    exact of_decodeEntriesFrom hvalue (hkeys ▸ List.nodup_nil) (fun _ h => absurd h List.not_mem_nil) hxs
  | _ => cases h

section

variable {σ : Type} {p : σ → Prop}

/-- A field keeps what holds of a record if putting a value that can be read keeps it. -/
theorem Field.of_optional {name : String}
    {put : α → σ → σ} (h : ∀ node x record, decode node = .ok x → p record → p (put x record)) (node : Node)
    (record next : σ) (hrecord : p record) (hnext : (Field.optional name decode put).decode node record = .ok next) :
    p next := by
  obtain ⟨x, hx, rfl⟩ := map_eq_ok_iff.1 hnext
  exact h node x record hx hrecord

theorem of_readNamed {fields : List (Field σ)} (hfields : ∀ field ∈ fields, ∀ node record next,
      p record → field.decode node record = .ok next → p next) {nodes : List (Label × Node)} {seen : List String}
    {record : σ} (hrecord : p record) {result : List String × σ} (h : readNamed fields seen record nodes = .ok result) :
    p result.2 := by
  induction nodes generalizing seen record with
  | nil =>
    cases h
    exact hrecord
  | cons entry nodes ih =>
    obtain ⟨name, -, h⟩ := bind_eq_ok_iff.1 h
    split at h
    · obtain ⟨_, -, h⟩ := bind_eq_ok_iff.1 h
      exact ih hrecord h
    · rename_i field hfind
      split at h
      · cases h
      · obtain ⟨next, hnext, h⟩ := bind_eq_ok_iff.1 h
        exact ih (hfields field (List.mem_of_find?_eq_some hfind) _ record next hrecord hnext) h

theorem of_readOrdered {shape : Shape σ} {all : List Node} {stop : Except Break (Option Nat)}
    {fields : List (Field σ)} (hfields : ∀ field ∈ fields, ∀ node record next,
      p record → field.decode node record = .ok next → p next) {nodes : List Node} {record result : σ}
    (hrecord : p record) (h : readOrdered shape all stop record fields nodes = .ok result) : p result := by
  induction fields generalizing nodes record with
  | nil =>
    cases nodes with
    | nil =>
      cases stop with
      | ok place =>
        cases h
        exact hrecord
      | error => cases h
    | cons => cases h
  | cons field fields ih =>
    rw [List.forall_mem_cons] at hfields
    cases nodes with
    | nil =>
      cases stop with
      | ok place =>
        rw [readOrdered] at h
        split at h
        · cases h
        · exact ih hfields.2 hrecord h
      | error => cases h
    | cons node nodes =>
      obtain ⟨next, hnext, h⟩ := bind_eq_ok_iff.1 h
      exact ih hfields.2 (hfields.1 node record next hrecord hnext) h

/-- What holds of the blank record and is kept by every field holds of each record that is read. -/
theorem of_decodeRecord {shape : Shape σ} (hblank : p shape.blank) (hfields : ∀ field ∈ shape.fields,
      ∀ node record next, p record → field.decode node record = .ok next → p next) {node : Node} {record : σ}
    (h : decodeRecord shape node = .ok record) : p record := by
  cases node with
  | array start nodes stop => exact of_readOrdered hfields hblank h
  | object start nodes stop =>
    obtain ⟨result, hread, h⟩ := bind_eq_ok_iff.1 h
    obtain ⟨_, -, h⟩ := bind_eq_ok_iff.1 h
    split at h
    · cases h
    · cases h
      exact of_readNamed hfields hblank hread
  | _ => cases h

end

/-- What is read from a text is read from a node. -/
theorem exists_of_readWith {text : String} (h : readWith decode text = .ok x) : ∃ node, decode node = .ok x := by
  rw [readWith] at h
  split at h
  · rename_i hread
    cases h
    obtain ⟨value, hvalue, hread⟩ := bind_eq_ok_iff.1 hread
    obtain ⟨_, -, hread⟩ := bind_eq_ok_iff.1 hread
    cases hread
    exact ⟨_, hvalue⟩
  · cases h

end CloudTemplate.Json

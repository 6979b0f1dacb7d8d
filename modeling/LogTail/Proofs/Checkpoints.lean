import LogTail.Checkpoint.Basic
import LogTail.Proofs.Values

namespace LogTail

open Json

namespace Json.Draft

variable {α : Type} {src : Source} {fields : List (Field α)}

theorem asRecord_object {expected : String} {ms : Members} {blank a : α} (seen : List String)
    (hms : recordMembers .value fields ms [] blank = .ok (seen, a))
    (hnone : firstMissing fields seen = .ok ()) :
    asRecord .value expected fields blank (.object ms) = .ok a := by
  simp [asRecord, Source.enter, bind, Except.bind, pure, Except.pure, hms, hnone]

theorem recordMembers_known {k : String} {f : Field α} {d : Draft} {ms : Members} {seen : List String}
    {a : α} (hfind : fields.find? (·.names.contains k) = some f) (hseen : seen.contains f.name = false) :
    recordMembers src fields (.member (.ok k) none d ms) seen a = (do
      let a' ← f.read src d a
      recordMembers src fields ms (f.name :: seen) a') := by
  rw [recordMembers]
  simp only [liftFault, bind, Except.bind, hfind, hseen]
  rfl

theorem recordMembers_field {k : String} {f : Field α} {d : Draft} {ms : Members}
    {seen : List String} {a : α} (a' : α) (hfind : fields.find? (·.names.contains k) = some f)
    (hseen : seen.contains f.name = false) (hread : f.read src d a = .ok a') :
    recordMembers src fields (.member (.ok k) none d ms) seen a =
      recordMembers src fields ms (f.name :: seen) a' := by
  rw [recordMembers_known hfind hseen, hread]
  rfl

theorem itemsWith_ofItems {β : Type} {f : β → Value} {g : Draft → Decoded β} {bs : List β}
    (h : ∀ b ∈ bs, g (ofValue (f b)) = .ok b) : itemsWith g (ofItems (bs.map f)) = .ok bs := by
  induction bs with
  | nil => rfl
  | cons b bs ih =>
      rw [List.map_cons, ofItems, itemsWith, h b (by simp), ih fun c hc => h c (by simp [hc])]
      rfl

end Json.Draft

/-- What a checkpoint can hold of a file: attributes in the order of their keys and an offset of 64
bits. -/
structure Metadata.Tidy (m : Metadata) : Prop where
  attributes : Ordered m.attributes
  offset : m.offset < Number.limit

namespace Fingerprint

theorem decodeBytes_encode (bs : Bytes) : decodeBytes (Base64.encode bs) = .ok bs := by
  rw [decodeBytes, Base64.decode_encode]

theorem ofDraft_toValue (a : Fingerprint) : ofDraft .value (.ofValue a.toValue) = .ok a := by
  refine Draft.asRecord_object ["first_bytes"] ?_ rfl
  change Draft.recordMembers _ _ (.member (.ok "first_bytes") none _ (.stop .closed)) _ _ = _
  rw [Draft.recordMembers_field a (by simp [fields]; rfl) rfl]
  · rfl
  · change (do return ⟨← decodeBytes (Base64.encode a.bytes)⟩ : Decoded Fingerprint) = _
    rw [decodeBytes_encode]
    rfl

end Fingerprint

namespace Metadata

theorem membersWith_attributes (as : List (String × String)) :
    Draft.membersWith (fun d => d.asText) (Draft.ofMembers (as.map fun a => (a.1, .string a.2))) =
      .ok as := by
  induction as with
  | nil => rfl
  | cons a as ih =>
      rw [List.map_cons, Draft.ofMembers, Draft.membersWith, ih]
      rfl

theorem asMap_attributes {as : List (String × String)} (h : Ordered as) :
    (Draft.ofValue (attributesValue as)).asMap .value (fun _ d => d.asText) = .ok as := by
  change (do
    let members ← Draft.membersWith (fun d => d.asText)
      (Draft.ofMembers (as.map fun a => (a.1, .string a.2)))
    return Json.ofMembers members : Decoded (List (String × String))) = _
  rw [membersWith_attributes]
  exact congrArg Except.ok (ofMembers_ordered h)

theorem asWord64_nat {n : Nat} (h : n < Number.limit) :
    (Draft.number (.ok (.nat n)) none).asWord64 = .ok n := by
  simp [Draft.asWord64, Draft.asNat, liftFault, bind, Except.bind, h, pure, Except.pure]

theorem ofDraft_toValue {m : Metadata} (h : m.Tidy) : ofDraft .value (.ofValue m.toValue) = .ok m := by
  refine Draft.asRecord_object ["offset", "fingerprint", "file_attributes"] ?_ rfl
  change Draft.recordMembers _ _ (.member (.ok "file_attributes") none
    (.ofValue (attributesValue m.attributes)) (.member (.ok "fingerprint") none
      (.ofValue m.fingerprint.toValue) (.member (.ok "offset") none (.number (.ok (.nat m.offset)) none)
        (.stop .closed)))) _ _ = _
  rw [Draft.recordMembers_field ⟨⟨[]⟩, 0, m.attributes⟩ (by simp [fields]; rfl) rfl,
    Draft.recordMembers_field ⟨m.fingerprint, 0, m.attributes⟩ (by simp [fields]; rfl) rfl,
    Draft.recordMembers_field m (by simp [fields]; rfl) rfl]
  · rfl
  · change (do return ⟨m.fingerprint, ← Draft.asWord64 _, m.attributes⟩ : Decoded Metadata) = _
    rw [asWord64_nat h.offset]
    rfl
  · change (do return ⟨← Fingerprint.ofDraft _ _, 0, m.attributes⟩ : Decoded Metadata) = _
    rw [Fingerprint.ofDraft_toValue]
    rfl
  · change (do return ⟨⟨[]⟩, 0, ← Draft.asMap _ _ _⟩ : Decoded Metadata) = _
    rw [asMap_attributes h.attributes]
    rfl

theorem wholeMembers_attributes (as : List (String × String)) :
    Value.WholeMembers (as.map fun a => (a.1, .string a.2)) ∧
      Value.nestMembers (as.map fun a => (a.1, .string a.2)) = 0 := by
  induction as with
  | nil => exact ⟨trivial, rfl⟩
  | cons a as ih => exact ⟨⟨trivial, ih.1⟩, by simp [Value.nestMembers, Value.nest, ih.2]⟩

theorem whole_toValue {m : Metadata} (h : m.offset < Number.limit) : m.toValue.WholeNumbers :=
  ⟨(wholeMembers_attributes m.attributes).1, ⟨trivial, trivial⟩, h, trivial⟩

theorem whole_written {m : Metadata} (h : m.offset < Number.limit) : m.written.WholeNumbers :=
  ⟨⟨trivial, trivial⟩, h, (wholeMembers_attributes m.attributes).1, trivial⟩

theorem nest_toValue (m : Metadata) : m.toValue.nest = 2 ∧ m.written.nest = 2 := by
  have hfp : m.fingerprint.toValue.nest = 1 := rfl
  simp [toValue, written, Value.nest, Value.nestMembers, attributesValue, hfp, Value.nat,
    (wholeMembers_attributes m.attributes).2]

def inOrder (m : Metadata) : Metadata := { m with attributes := Json.ofMembers m.attributes }

theorem inOrder_tidy {m : Metadata} (h : m.offset < Number.limit) : m.inOrder.Tidy :=
  ⟨(ofMembers_spec m.attributes).1, h⟩

theorem inOrder_eq {m : Metadata} (h : m.Tidy) : m.inOrder = m := by
  rw [inOrder, ofMembers_ordered h.attributes]

theorem ofMembers_attributes (as : List (String × String)) :
    Json.ofMembers (Value.orderedMembers (as.map fun a => (a.1, Value.string a.2))) =
      (Json.ofMembers as).map fun a => (a.1, Value.string a.2) := by
  have hmembers : Value.orderedMembers (as.map fun a => (a.1, Value.string a.2)) =
      as.map fun a => (a.1, Value.string a.2) :=
    Draft.orderedMembers_eq fun m hm => by
      obtain ⟨a, -, rfl⟩ := List.mem_map.mp hm
      rfl
  rw [hmembers]
  exact ofMembers_map Value.string as

theorem ordered_fields (m : Metadata) :
    Ordered [("file_attributes", attributesValue m.attributes), ("fingerprint", m.fingerprint.toValue),
      ("offset", .nat m.offset)] :=
  List.pairwise_map.mp (by decide : ["file_attributes", "fingerprint", "offset"].Pairwise (· < ·))

theorem ordered_written (m : Metadata) : m.written.ordered = m.inOrder.toValue := by
  have hattributes : (attributesValue m.attributes).ordered = attributesValue m.inOrder.attributes :=
    congrArg Value.object (ofMembers_attributes m.attributes)
  have hfp : m.fingerprint.toValue.ordered = m.fingerprint.toValue := rfl
  rw [written, Value.ordered, Value.orderedMembers, Value.orderedMembers, Value.orderedMembers,
    hattributes, hfp]
  have hfirst := ofMembers_first (ordered_fields m.inOrder)
  exact congrArg Value.object hfirst

end Metadata

namespace Checkpoint

theorem wholeItems_files {f : Metadata → Value} {files : List Metadata}
    (hf : ∀ m ∈ files, (f m).WholeNumbers ∧ (f m).nest = 2) :
    Value.WholeItems (files.map f) ∧ Value.nestItems (files.map f) ≤ 2 := by
  induction files with
  | nil => exact ⟨trivial, Nat.zero_le _⟩
  | cons m files ih =>
      obtain ⟨hwhole, hnest⟩ := ih fun n hn => hf n (by simp [hn])
      obtain ⟨hm, hdeep⟩ := hf m (by simp)
      refine ⟨⟨hm, hwhole⟩, ?_⟩
      rw [List.map_cons, Value.nestItems, hdeep]
      omega

def document (files : List Metadata) : Value := (Document.ofFiles files).toValue

theorem document_eq (files : List Metadata) :
    document files =
      .object [("files", .array (files.map Metadata.toValue)), ("version", .nat 1)] := rfl

theorem whole_document {files : List Metadata} (h : ∀ m ∈ files, m.offset < Number.limit) :
    (document files).WholeNumbers ∧ (document files).nest < Draft.maxDepth := by
  obtain ⟨hwhole, hnest⟩ := wholeItems_files (f := Metadata.toValue) fun m hm =>
    ⟨Metadata.whole_toValue (h m hm), (Metadata.nest_toValue m).1⟩
  refine ⟨⟨hwhole, (by decide : 1 < Number.limit), trivial⟩, ?_⟩
  simp only [document_eq, Value.nest, Value.nestMembers, Value.nat, Draft.maxDepth]
  omega

theorem whole_written {files : List Metadata} (h : ∀ m ∈ files, m.offset < Number.limit) :
    (Document.ofFiles files).written.WholeNumbers ∧
      (Document.ofFiles files).written.nest < Draft.maxDepth := by
  obtain ⟨hwhole, hnest⟩ := wholeItems_files (f := Metadata.written) fun m hm =>
    ⟨Metadata.whole_written (h m hm), (Metadata.nest_toValue m).2⟩
  refine ⟨⟨(by decide : 1 < Number.limit), hwhole, trivial⟩, ?_⟩
  simp only [Document.ofFiles, Document.written, Value.ofList, Value.nest, Value.nestMembers, Value.nat,
    Draft.maxDepth]
  omega

theorem ordered_fields (files : List Metadata) :
    Ordered [("files", Value.ofList Metadata.toValue files), ("version", Value.nat 1)] :=
  List.pairwise_map.mp (by decide : ["files", "version"].Pairwise (· < ·))

theorem ordered_written (files : List Metadata) :
    (Document.ofFiles files).written.ordered = document (files.map Metadata.inOrder) := by
  have hitems : Value.orderedItems (files.map Metadata.written) =
      (files.map Metadata.inOrder).map Metadata.toValue := by
    induction files with
    | nil => rfl
    | cons m files ih =>
        rw [List.map_cons, Value.orderedItems, Metadata.ordered_written, ih]
        rfl
  have hfiles : (Value.ofList Metadata.written files).ordered =
      .ofList Metadata.toValue (files.map Metadata.inOrder) := congrArg Value.array hitems
  rw [Document.written, Value.ordered, Value.orderedMembers, Value.orderedMembers]
  change Value.object (Json.ofMembers [("version", _), ("files", (Value.ofList _ files).ordered)]) = _
  rw [hfiles]
  have hfirst := ofMembers_first (ordered_fields (files.map Metadata.inOrder))
  exact congrArg Value.object hfirst

theorem ofDraft_document {files : List Metadata} (h : ∀ m ∈ files, m.Tidy) :
    Document.ofDraft .value (.ofValue (document files)) = .ok ⟨1, files⟩ := by
  refine Draft.asRecord_object ["version", "files"] ?_ rfl
  change Draft.recordMembers _ _ (.member (.ok "files") none
    (.ofValue (.array (files.map Metadata.toValue))) (.member (.ok "version") none
      (.number (.ok (.nat 1)) none) (.stop .closed))) _ _ = _
  rw [Draft.recordMembers_field ⟨0, files⟩ (by simp [Document.fields]; rfl) rfl,
    Draft.recordMembers_field ⟨1, files⟩ (by simp [Document.fields]; rfl) rfl]
  · rfl
  · rfl
  · have hitems : Draft.itemsWith (Metadata.ofDraft .value)
        (Draft.ofItems (files.map Metadata.toValue)) = .ok files :=
      Draft.itemsWith_ofItems fun m hm => Metadata.ofDraft_toValue (h m hm)
    change (do return ⟨0, ← Draft.itemsWith (Metadata.ofDraft .value) _⟩ : Decoded Document) = _
    rw [hitems]
    rfl

theorem decode_object {v : Value} {ms : List (String × Value)} {files : List Metadata}
    (hblank : v.print.all isBlank = false) (hparse : Value.ofBytes v.print = .ok (.object ms))
    (hread : Document.ofDraft .value (.ofValue (.object ms)) = .ok ⟨1, files⟩) :
    decode v.print = .ok files := by
  rw [decode, hblank, hparse]
  change ofDocument (.object ms) = _
  rw [ofDocument, hread]
  rfl

theorem tidy_inOrder {files : List Metadata} (h : ∀ m ∈ files, m.offset < Number.limit) :
    ∀ m ∈ files.map Metadata.inOrder, m.Tidy := by
  intro m hm
  obtain ⟨n, hn, rfl⟩ := List.mem_map.mp hm
  exact Metadata.inOrder_tidy (h n hn)

theorem ofBytes_encode {files : List Metadata} (h : ∀ m ∈ files, m.offset < Number.limit) :
    Value.ofBytes (encode files) = .ok (document (files.map Metadata.inOrder)) := by
  obtain ⟨hwhole, hnest⟩ := whole_written h
  rw [encode, Value.ofBytes_print hwhole hnest, ordered_written]

/-- What was encoded is decoded with the attributes in order. -/
theorem decode_inOrder {files : List Metadata} (h : ∀ m ∈ files, m.offset < Number.limit) :
    decode (encode files) = .ok (files.map Metadata.inOrder) := by
  refine decode_object ?_ (ofBytes_encode h) (ofDraft_document (tidy_inOrder h))
  simp [Document.written, Value.print, isBlank]

theorem map_inOrder {files : List Metadata} (h : ∀ m ∈ files, m.Tidy) :
    files.map Metadata.inOrder = files :=
  (List.map_congr_left fun m hm => Metadata.inOrder_eq (h m hm)).trans (List.map_id files)

theorem decode_encode {files : List Metadata} (h : ∀ m ∈ files, m.Tidy) :
    decode (encode files) = .ok files := by
  rw [decode_inOrder fun m hm => (h m hm).offset, map_inOrder h]

theorem ordered_document {files : List Metadata} (h : ∀ m ∈ files, m.Tidy) :
    (document files).ordered = document files := by
  have hencode := ofBytes_encode fun m hm => (h m hm).offset
  rw [map_inOrder h] at hencode
  exact Value.ordered_ofBytes hencode

theorem ofBytes_document {files : List Metadata} (h : ∀ m ∈ files, m.Tidy) :
    Value.ofBytes (document files).print = .ok (document files) := by
  obtain ⟨hwhole, hnest⟩ := whole_document fun m hm => (h m hm).offset
  rw [Value.ofBytes_print hwhole hnest, ordered_document h]

theorem decode_document {files : List Metadata} (h : ∀ m ∈ files, m.Tidy) :
    decode (document files).print = .ok files := by
  refine decode_object ?_ (ofBytes_document h) (ofDraft_document h)
  simp [document, Document.toValue, Value.print, isBlank]

end Checkpoint

end LogTail

import SinkTrace.Config.Document
import SinkTrace.Libraries.Pattern.Reader
import SinkTrace.Proofs.Libraries.Yaml.Format

/-!
What is written for a configuration is read as the configuration itself, as far as it is valid.
The fields of a record are found under their names again, every value stands for what it was
written for, and the record is one that a faithful format gives back.
-/

namespace SinkTrace

/-! Records. -/

section Records

variable {α β : Type} {names : List String} {values : List (Option α)}

theorem fieldsOf_cons (name : String) (value : Option α) :
    fieldsOf (name :: names) (value :: values) =
      (value.map (name, ·)).toList ++ fieldsOf names values := by
  cases value <;> rfl

theorem fieldsOf_map (f : α → β) (names : List String) (values : List (Option α)) :
    (fieldsOf names values).map (fun (name, a) => (name, f a)) =
      fieldsOf names (values.map (Option.map f)) := by
  induction names generalizing values with
  | nil => rfl
  | cons name names ih =>
    cases values with
    | nil => rfl
    | cons value values =>
      rw [List.map_cons, fieldsOf_cons, fieldsOf_cons, List.map_append, ih]
      cases value <;> rfl

theorem names_fieldsOf_sublist (names : List String) (values : List (Option α)) :
    ((fieldsOf names values).map Prod.fst).Sublist names := by
  induction names generalizing values with
  | nil => simp [fieldsOf]
  | cons name names ih =>
    cases values with
    | nil => simp [fieldsOf]
    | cons value values =>
      rw [fieldsOf_cons, List.map_append]
      cases value with
      | none => exact (ih values).cons _
      | some a => exact (ih values).cons_cons _

theorem find?_fieldsOf (hlen : values.length = names.length) (hn : names.Nodup) :
    names.map (fun name => ((fieldsOf names values).find? (·.1 == name)).map Prod.snd) =
      values := by
  induction names generalizing values with
  | nil => exact (List.eq_nil_of_length_eq_zero hlen).symm
  | cons name names ih =>
    obtain ⟨value, values, rfl⟩ := List.exists_cons_of_length_eq_add_one hlen
    rw [List.nodup_cons] at hn
    have hrest := ih (Nat.succ.inj hlen) hn.2
    have hfresh : (fieldsOf names values).find? (·.1 == name) = none :=
      List.find?_eq_none.mpr fun e he h => hn.1 ((names_fieldsOf_sublist names values).subset
        (List.mem_map.mpr ⟨e, he, by simpa using h⟩))
    rw [List.map_cons, fieldsOf_cons]
    congr 1
    · cases value with
      | none => simp [hfresh]
      | some a => simp
    · refine Eq.trans (List.map_congr_left fun other hother => ?_) hrest
      have hne : name ≠ other := fun h => hn.1 (h ▸ hother)
      cases value with
      | none => rfl
      | some a => simp [hne]

theorem record?_fieldsOf {values : List (Option Document)} (hlen : values.length = names.length)
    (hn : names.Nodup) : (Document.record (fieldsOf names values)).record? names = some values := by
  have hsub := names_fieldsOf_sublist names values
  have hknown : ((fieldsOf names values).map Prod.fst).all names.elem = true :=
    List.all_eq_true.mpr fun name hname => List.elem_iff.mpr (hsub.subset hname)
  rw [Document.record?]
  simp only [hknown, hn.sublist hsub, and_self, ↓reduceIte, find?_fieldsOf hlen hn]

theorem of_mem_fieldsOf {e : String × α} (h : e ∈ fieldsOf names values) :
    e.1 ∈ names ∧ some e.2 ∈ values := by
  obtain ⟨⟨name, value⟩, hzip, hvalue⟩ := List.mem_filterMap.mp h
  obtain ⟨a, rfl, rfl⟩ := Option.map_eq_some_iff.mp hvalue
  exact List.of_mem_zip hzip

end Records

namespace Value

variable {known names : List String} {values : List (Option Value)}

/-- A record that is written stands for its values again. -/
theorem record?_document (hlen : values.length = names.length) (hn : names.Nodup) :
    (Value.record (fieldsOf names values)).document.record? names =
      some (values.map (Option.map document)) := by
  rw [document, documents_eq_map, fieldsOf_map]
  exact record?_fieldsOf ((List.length_map _).trans hlen) hn

theorem clean_record (hne : fieldsOf names values ≠ []) (hn : names.Nodup)
    (hknown : names ⊆ known) (hvalues : ∀ v, some v ∈ values → v.Clean known) :
    (Value.record (fieldsOf names values)).Clean known :=
  .record hne (fun _ he => hknown (of_mem_fieldsOf he).1)
    (hn.sublist (names_fieldsOf_sublist names values))
    fun _ he => hvalues _ (of_mem_fieldsOf he).2

end Value

/-! Values. -/

namespace Document

variable {α : Type} {f : Document → Option α}

/-- The document stands for the value, which is not absent. -/
def Means (f : Document → Option α) (d : Document) (a : α) : Prop :=
  d.isNull = false ∧ f d = some a

theorem optional_map {g : α → Value} (h : ∀ a, Means f (g a).document a) (o : Option α) :
    optional f ((o.map g).map Value.document) = some o := by
  cases o with
  | none => rfl
  | some a => simp [optional, (h a).1, (h a).2]

/-- An absent value that is written as null. -/
theorem optional_elim {g : α → Value} (h : ∀ a, Means f (g a).document a) (o : Option α) :
    optional f (some (o.elim .null g).document) = some o := by
  cases o with
  | none => rfl
  | some a => simp [optional, (h a).1, (h a).2]

theorem means_text (s : String) : Means text? (Value.text s).document s := ⟨rfl, rfl⟩

theorem means_bool (b : Bool) : Means bool? (Value.bool b).document b := ⟨rfl, rfl⟩

theorem word?_nat {bits n : Nat} (hn : n < Nat.pow 2 bits) :
    (Value.nat n).document.word? bits = some n :=
  Option.filter_some_pos (p := (decide <| · < Nat.pow 2 bits)) (decide_eq_true hn)

theorem means_word32 (n : UInt32) : Means word32? (Value.nat n.toNat).document n :=
  ⟨rfl, by rw [word32?, word?_nat n.toNat_lt, Option.map_some, UInt32.ofNat_toNat]⟩

theorem means_word64 (n : UInt64) : Means word64? (Value.nat n.toNat).document n :=
  ⟨rfl, by rw [word64?, word?_nat n.toNat_lt, Option.map_some, UInt64.ofNat_toNat]⟩

theorem means_texts (ss : List String) :
    Means (listOf? text?) (Value.texts ss).document ss := by
  refine ⟨rfl, ?_⟩
  rw [Value.document, listOf?]
  induction ss with
  | nil => rfl
  | cons s ss ih =>
    rw [List.map_cons, List.mapM_cons, ih]
    rfl

end Document

/-! Documents. -/

theorem Overrides.means_toValue (o : Overrides) :
    Document.Means ofDocument? o.toValue.document o := by
  refine ⟨rfl, ?_⟩
  have hrecord : o.toValue.document.record? names =
      some (o.values.map (Option.map Value.document)) :=
    Value.record?_document rfl (by decide)
  rw [ofDocument?, hrecord]
  simp only [values, List.map_cons, List.map_nil, Option.bind_eq_bind, Option.bind_some,
    Document.optional_map Document.means_text, Document.optional_map Document.means_word32,
    Document.optional_map Document.means_word64, Document.optional_map Document.means_bool,
    Document.optional_map Document.means_texts]

/-- Whatever a file says is read from what is written for it. -/
theorem ConfigDocument.ofDocument?_toValue (d : ConfigDocument) :
    ofDocument? d.toValue.document = some d := by
  have hrecord : d.toValue.document.record? names =
      some (d.values.map (Option.map Value.document)) :=
    Value.record?_document rfl (by decide)
  rw [ofDocument?, hrecord]
  simp only [values, List.map_cons, List.map_nil, Option.map_some, Option.bind_eq_bind,
    Option.bind_some, Document.optional_elim Document.means_word32,
    (Document.means_text d.preset).2, Document.optional_map Overrides.means_toValue]

namespace Preset

theorem name_clean (p : Preset) : IsClean p.name := by
  cases p <;> decide

theorem ofName?_name (p : Preset) : ofName? p.name = some p := by
  cases p <;> decide

theorem config_preset (p : Preset) : p.config.preset = p := by
  cases p <;> rfl

end Preset

namespace Config

variable {c : Config}

/-- The names of all fields of a configuration file. -/
def fieldNames : List String := ConfigDocument.names ++ Overrides.names

/-- No text in the configuration holds a control character. -/
def Clean (c : Config) : Prop :=
  IsClean c.sensitiveSink ∧ ∀ m ∈ c.externalMethods, IsClean m

theorem Clean.overrides (h : c.Clean) : c.overrides.toValue.Clean fieldNames := by
  refine Value.clean_record (List.cons_ne_nil _ _) (by decide) (by decide) ?_
  intro v hv
  simp only [Overrides.values, Config.overrides, Option.map_some, List.mem_cons, Option.some.injEq,
    List.not_mem_nil, or_false] at hv
  have hword32 (n : UInt32) : (Value.nat n.toNat).Clean fieldNames :=
    .nat (Nat.lt_trans n.toNat_lt_size (by decide))
  obtain rfl | rfl | rfl | rfl | rfl | rfl | rfl | rfl | rfl := hv
  · exact .text h.1
  · exact hword32 _
  · exact .bool _
  · exact .bool _
  · exact .texts h.2
  · exact hword32 _
  · exact .nat c.summaryCacheCapacity.toNat_lt_size
  · exact .bool _
  · exact .bool _

theorem Clean.toDocument (h : c.Clean) : c.toDocument.toValue.Clean fieldNames := by
  refine Value.clean_record (List.cons_ne_nil _ _) (by decide) (by decide) fun v hv => ?_
  simp only [ConfigDocument.values, Config.toDocument, Option.elim_some, Option.map_some,
    List.mem_cons, Option.some.injEq, List.not_mem_nil, or_false] at hv
  obtain rfl | rfl | rfl := hv
  · exact .nat (by decide)
  · exact .text c.preset.name_clean
  · exact h.overrides

/-- The overrides of a configuration leave nothing of the preset behind. -/
theorem config_toDocument (compile : PatternCompiler) (c : Config) :
    c.toDocument.config compile = (c.validate compile).map fun _ => c := by
  have hoverride : c.preset.config.override c.overrides = c :=
    override_overrides c _ c.preset.config_preset
  simp only [ConfigDocument.config, toDocument, ne_eq, not_true_eq_false, ↓reduceIte,
    c.preset.ofName?_name, Option.getD_some, hoverride]
  cases c.validate compile <;> rfl

/-- What is written for a configuration is read as that configuration if it is valid, and is
refused with its first fault otherwise, whatever the pattern language is and whichever faithful
format the file is written in. -/
theorem ofYaml_toYaml {format : TextFormat} (compile : PatternCompiler)
    (hf : format.Faithful fieldNames) (h : c.Clean) :
    ofYaml format compile (c.toYaml format) = (c.validate compile).map fun _ => c := by
  have hread : format.read? (c.toYaml format) = some c.toDocument.toValue.document :=
    hf _ h.toDocument
  rw [ofYaml, hread, Option.bind_some, ConfigDocument.ofDocument?_toValue]
  exact c.config_toDocument compile

/-- Texts that would be something else in the notation without their quotes. -/
def lookalikes : Config where
  preset := .thorough
  sensitiveSink := "null"
  externalMethods := ["", "~", "true", "1e3", "0x1F", "# note", "key: value", "- item", "[a]",
    "it's", "\"quoted\"", " blank "]

theorem validate_lookalikes : lookalikes.validate Pattern.compile = .ok () := by
  have hvalid : (lookalikes.validate Pattern.compile).isOk = true := by decide +kernel
  revert hvalid
  cases lookalikes.validate Pattern.compile with
  | ok => exact fun _ => rfl
  | error e => exact nofun

theorem ofYaml_toYaml_lookalikes :
    ofYaml Yaml.format Pattern.compile (lookalikes.toYaml Yaml.format) = .ok lookalikes ∧
      ofYaml Yaml.format Pattern.compile
        ({ lookalikes with virtualCallsLimit := 0 }.toYaml Yaml.format) =
          .error (.range limitBounds 0) := by
  have hformat : Yaml.format.Faithful fieldNames := Yaml.faithful_format (by decide)
  have hclean : lookalikes.Clean := ⟨by decide, by decide⟩
  refine ⟨?_, ofYaml_toYaml (c := { lookalikes with virtualCallsLimit := 0 }) _ hformat hclean⟩
  rw [ofYaml_toYaml _ hformat hclean, validate_lookalikes]
  rfl

end Config

end SinkTrace

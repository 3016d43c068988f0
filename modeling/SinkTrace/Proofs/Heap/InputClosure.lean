import SinkTrace.Proofs.Heap.Closure
import SinkTrace.Proofs.Heap.Coverage

/-!
Deep input reaches everything below an entity, now and for the rest of a run: fields that are
loaded, stored or merged in later are input as well.
-/

namespace SinkTrace

namespace Heap

variable {h h' : Heap} {u v : EntityId}

/-- What is below a deep input is input, also after the heap grew. -/
theorem Grows.input_below (hg : Grows h h') (hp : h'.Proper) (hd : (h.entity u).deep = true)
    (hb : h'.Below u v) :
    (h'.entity v).deep = true ∧ TaintId.isInput (h'.taint v) = true := by
  have hv := hp.deep_below hb (hg.deep hd)
  exact ⟨hv, TaintId.isInput_iff.mpr (hp.closed.taint hv)⟩

theorem Proper.input_child (hp : h.Proper) {id child : EntityId} {e : Entity} {key : FieldName}
    (he : h.live? id = some e) (hd : e.deep = true) (hm : (key, child) ∈ e.fields.entries) :
    ∃ e' : Entity, h.live? child = some e' ∧ e'.deep = true := by
  have hget := (Table.mem_entries_iff (hp.wellFormed.keys he) key child).mp hm
  obtain ⟨e', he', -⟩ := hp.wellFormed.child he hget
  have hdeep : (h.entity id).deep = true := by rw [entity_of_live? he, hd]
  have hfield : h.field? id key = some child := by
    rw [field?_of_live? he, hget, Option.map_some, find_of_live? he']
  have hchild := owed_nil.mp (hp.closed.children hdeep hfield)
  rw [entity_of_live? he'] at hchild
  exact ⟨e', he', hchild⟩

/-- On every heap that a run can build, a live deep input is input and its children are deep
inputs. An entity that was marked, or is deep for another reason, keeps everything below it input
whatever the run does next. -/
theorem input_closed (hr : h.Reachable) :
    (∀ (id : EntityId) (e : Entity), h.nodes[id]? = some (.live e) → e.deep = true →
      TaintId.isInput e.taint = true ∧ ∀ key child, (key, child) ∈ e.fields.entries →
        ∃ e' : Entity, h.nodes[child]? = some (.live e') ∧ e'.deep = true) ∧
    (∀ id h', (h.entity id).deep = true → Relation.ReflTransGen Step h h' →
      ∀ v, h'.Below id v → (h'.entity v).deep = true ∧ TaintId.isInput (h'.taint v) = true) ∧
    ∀ id h', id < h.size → Relation.ReflTransGen Step (h.markInput id) h' →
      ∀ v, h'.Below id v → (h'.entity v).deep = true ∧ TaintId.isInput (h'.taint v) = true := by
  have hp := hr.proper
  refine ⟨fun id e he hd => ?_, fun id h' hd hs v hb => ?_, fun id h' hid hs v hb => ?_⟩
  · have hlive := live?_eq_some.mpr he
    constructor
    · have ht := @InputClosed.taint _ _ hp.closed id (by rw [entity_of_live? hlive, hd])
      rw [Heap.taint, entity_of_live? hlive] at ht
      exact TaintId.isInput_iff.mpr ht
    · intro key child hm
      obtain ⟨e', he', hd'⟩ := hp.input_child hlive hd hm
      exact ⟨e', live?_eq_some.mp he', hd'⟩
  · have hr' : h'.Reachable := Relation.ReflTransGen.trans hr hs
    exact (hr.grows hs).input_below hr'.proper hd hb
  · -- marking makes the entity deep, and from there on it stays deep
    have hmarked := hr.step (.markInput hid)
    have hr' : h'.Reachable := Relation.ReflTransGen.trans hmarked hs
    exact (hmarked.grows hs).input_below hr'.proper (hp.deep_markInput hid) hb

/-- An entity that was marked before it had fields. -/
def branded : Heap := (create {} none).2.markInput 0

/-- The field that it gets later is input. -/
theorem branded_closed :
    branded.Reachable ∧ (branded.loadField 0 "next").2.Below 0 (branded.loadField 0 "next").1 ∧
      TaintId.isInput ((branded.loadField 0 "next").2.taint (branded.loadField 0 "next").1)
        = true := by
  have hstart : (create {} none).2.Reachable := Relation.ReflTransGen.single (.create none)
  have hsize : 0 < (create {} none).2.size := by decide
  have hbrand := Step.markInput hsize
  have hr : branded.Reachable := hstart.step hbrand
  have hgrown : 0 < branded.size := (hbrand.evolves hstart.proper).lt_size hsize
  have hload : Relation.ReflTransGen Step branded (branded.loadField 0 "next").2 :=
    .single (.loadField hgrown "next")
  have hfield := field?_loadField hr.proper.wellFormed hgrown "next"
  have hbelow : (branded.loadField 0 "next").2.Below 0 (branded.loadField 0 "next").1 :=
    .single ⟨"next", hfield⟩
  exact ⟨hr, hbelow, ((input_closed hstart).2.2 0 _ hsize hload _ hbelow).2⟩

end Heap

end SinkTrace

import SinkTrace.NameSet
import SinkTrace.Rounding
import SinkTrace.Summary.Basic

/-!
The summaries at hand, as far as there is room for them, and the types whose constructors were seen.
Which summaries leave when there is no more room is up to an eviction policy.
-/

namespace SinkTrace

/-- Which of the summaries stay, the most recently used one in front. -/
structure Eviction where
  keep : (capacity : Nat) → List (SummaryKey × Summary) → List (SummaryKey × Summary)
  sublist : ∀ capacity entries, (keep capacity entries).Sublist entries

/-- The least recently used summaries leave. -/
def Eviction.leastRecent : Eviction := ⟨List.take, List.take_sublist⟩

instance : Inhabited Eviction := ⟨.leastRecent⟩

structure Cache where
  /-- At least one summary is kept. -/
  capacity : Nat := 65536
  eviction : Eviction := .leastRecent
  /-- Most recently used first. -/
  entries : List (SummaryKey × Summary) := []
  createdTypes : NameSet := []
  hits : Nat := 0
  misses : Nat := 0
deriving Inhabited

namespace Cache

def ofCapacity (n : Nat) (eviction : Eviction := .leastRecent) : Cache :=
  { capacity := max n 1, eviction }

def size (c : Cache) : Nat := c.entries.length

def contains (c : Cache) (key : SummaryKey) : Bool := c.entries.any (·.1 == key)

def without (c : Cache) (key : SummaryKey) : List (SummaryKey × Summary) :=
  c.entries.filter (·.1 != key)

/-- A summary that is asked for becomes the most recent one. -/
def get (c : Cache) (key : SummaryKey) : Option Summary × Cache :=
  match c.entries.find? (·.1 == key) with
  | some entry => (some entry.2, { c with entries := entry :: c.without key, hits := c.hits + 1 })
  | none => (none, { c with misses := c.misses + 1 })

def put (c : Cache) (key : SummaryKey) (summary : Summary) : Cache :=
  { c with entries := c.eviction.keep c.capacity ((key, summary) :: c.without key) }

/-- Whether the type had not been seen. -/
def registerType (c : Cache) (name : String) : Bool × Cache :=
  (!c.createdTypes.elem name, { c with createdTypes := c.createdTypes.insert name })

def reset (c : Cache) : Cache := { capacity := c.capacity, eviction := c.eviction }

def stats (c : Cache) : String :=
  "Summaries: " ++ toString c.size ++ " entries, " ++ toString c.hits ++ " hits, "
    ++ toString c.misses ++ " misses, " ++ (Ratio.percent c.hits c.misses).twoPlaces
    ++ "% hit rate, " ++ toString c.createdTypes.length ++ " created types"

end Cache

end SinkTrace

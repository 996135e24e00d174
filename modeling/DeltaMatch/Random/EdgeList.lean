import DeltaMatch.Edge
import Std.Data.HashSet

/-! Random edge lists over any source of random words: distinct edges without self
loops, their labels counted from zero. Numbers below a bound are drawn without bias
by turning down some of the words. Words may be turned down for ever, so the loops have
a limit, at which a drawing stops without an outcome. -/
namespace DeltaMatch
namespace Random

/-- A source of random words. -/
abbrev Source (γ : Type) := γ → UInt32 × γ

/-- What makes a drawing fail. -/
inductive DrawError where
  /-- A number is to be drawn from a range that has none. -/
  | emptyRange
  deriving DecidableEq

/-- A drawing from a source. It has no outcome when it reaches its limit. -/
abbrev Drawing (γ : Type) := StateT γ (ExceptT DrawError Option)

/-- The high half of the product of two words. -/
def highHalf (w bound : UInt32) : UInt32 := ((w.toUInt64 * bound.toUInt64) >>> 32).toUInt32

/-- The low half of the product of two words. -/
def lowHalf (w bound : UInt32) : UInt32 := (w.toUInt64 * bound.toUInt64).toUInt32

/-- Draws words until one is accepted; the high half of its product with the bound is
then a number below the bound. -/
def drawAccepted {γ : Type} (source : Source γ) (bound zone : UInt32) :
    Nat → γ → Option (UInt32 × γ)
  | 0, _ => none
  | tries + 1, s =>
    let (w, s) := source s
    if lowHalf w bound ≤ zone then some (highHalf w bound, s)
    else drawAccepted source bound zone tries s

/-- The largest accepted low half when the bound is shifted to the top of the word. -/
def shiftedZone (bound : UInt32) : UInt32 :=
  (bound <<< (31 - bound.toNat.log2).toUInt32) - 1

/-- The largest accepted low half when only the incomplete last run is turned down. -/
def exactZone (bound : UInt32) : UInt32 := 0xFFFFFFFF - (0 - bound) % bound

/-- Draws a number below a bound. -/
def drawBelow {γ : Type} (tries : Nat) (source : Source γ) (zone : UInt32 → UInt32)
    (bound : UInt32) : Drawing γ UInt32 := fun s =>
  if bound = 0 then some (.error .emptyRange)
  else (drawAccepted source bound (zone bound) tries s).map .ok

/-- Draws a vertex below a bound. -/
def vertexBelow {γ : Type} (tries : Nat) (source : Source γ) (vertices : UInt32) :
    Drawing γ VertexId :=
  drawBelow tries source shiftedZone vertices

/-- Draws a label below a bound. -/
def labelBelow {γ : Type} (tries : Nat) (source : Source γ) (types : UInt32) :
    Drawing γ Label := do
  let n ← drawBelow tries source exactZone types
  return ⟨Int16.ofNat n.toNat⟩

/-- Draws an edge, or nothing when both endpoints are the same vertex. The label is
drawn last and only for an edge. -/
def drawEdge {γ : Type} (tries : Nat) (source : Source γ) (vertices types : UInt32) :
    Drawing γ (Option Edge) := do
  let a ← vertexBelow tries source vertices
  let b ← vertexBelow tries source vertices
  if a = b then return none
  let l ← labelBelow tries source types
  return some ⟨a, b, l⟩

/-- Draws edges until the wanted number of further distinct ones is found, in a number of
rounds. -/
def drawEdges {γ : Type} (tries : Nat) (source : Source γ) (vertices types : UInt32) :
    Nat → Nat → Std.HashSet Edge → List Edge → Drawing γ (List Edge)
  | _, 0, _, found, s => some (.ok (found.reverse, s))
  | 0, _ + 1, _, _, _ => none
  | rounds + 1, wanted + 1, seen, found, s =>
    match drawEdge tries source vertices types s with
    | none => none
    | some (.error cause) => some (.error cause)
    | some (.ok (none, s)) =>
      drawEdges tries source vertices types rounds (wanted + 1) seen found s
    | some (.ok (some e, s)) =>
      if seen.contains e then
        drawEdges tries source vertices types rounds (wanted + 1) seen found s
      else drawEdges tries source vertices types rounds wanted (seen.insert e) (e :: found) s

/-- The number of labels in use, at least one. -/
def labelCount (edgeTypes : Int16) : Nat := max edgeTypes.toInt.toNat 1

/-- How many distinct edges there are to draw, in 64 bits. -/
def edgeCapacity (vertices : UInt32) (edgeTypes : Int16) : UInt64 :=
  vertices.toUInt64 * UInt64.ofNat (vertices.toNat - 1) * UInt64.ofNat (labelCount edgeTypes)

/-- Draws the given number of distinct edges over some vertices, or all of them when
there are fewer. No loop goes round more often than the limit. -/
def drawList {γ : Type} (limit : Nat) (source : Source γ) (vertices : UInt32) (edges : Nat)
    (edgeTypes : Int16) : Drawing γ (List Edge) :=
  drawEdges limit source vertices (UInt32.ofNat (labelCount edgeTypes)) limit
    (min edges (edgeCapacity vertices edgeTypes).toNat) ∅ []

/-- A limit that no drawing reaches in practice. At most every second word is turned down,
but late rounds mostly meet known edges, so that a complete list takes far more rounds than it
has edges. -/
def practicalLimit : Nat := 0x4000000000000000

/-- The list that a drawing ends with. -/
def edgeList {γ : Type} (source : Source γ) (vertices : UInt32) (edges : Nat)
    (edgeTypes : Int16) (s : γ) : Option (List Edge × γ) :=
  match drawList practicalLimit source vertices edges edgeTypes s with
  | some (.ok drawn) => some drawn
  | _ => none

end Random
end DeltaMatch

import DeltaMatch.Proofs.Random.Drawing
import Mathlib.Data.Finset.Prod
import Mathlib.Data.Nat.Basic

/-!
# The shape of random edge lists

Whatever words a source hands out, a list that is drawn has as many edges as were asked for, or
all edges when there are fewer: without repeats, without self loops, and with vertices and labels
below their bounds. Nothing is drawn from an empty range, the limit does not change what is drawn,
and each list of this shape is drawn from some words.
-/

namespace DeltaMatch
namespace Random

variable {γ : Type} {source : Source γ} {s s' : γ} {vertices types : UInt32} {edgeTypes : Int16}
  {limit limit' tries tries' rounds rounds' wanted : Nat} {seen : Std.HashSet Edge}
  {found list : List Edge} {e : Edge} {l : Label}

/-! ## Labels -/

theorem labelCount_pos (edgeTypes : Int16) : 0 < labelCount edgeTypes :=
  Nat.le_max_right ..

theorem labelCount_lt (edgeTypes : Int16) : labelCount edgeTypes < 2 ^ 15 := by
  have hlt := edgeTypes.toInt_lt
  rw [labelCount]
  omega

theorem toNat_labelCount (edgeTypes : Int16) :
    (UInt32.ofNat (labelCount edgeTypes)).toNat = labelCount edgeTypes := by
  have hlt := labelCount_lt edgeTypes
  exact UInt32.toNat_ofNat_of_lt' (by simp only [UInt32.size]; omega)

theorem labelCount_ne_zero (edgeTypes : Int16) : UInt32.ofNat (labelCount edgeTypes) ≠ 0 := by
  have hpos := labelCount_pos edgeTypes
  intro hzero
  have hnat := toNat_labelCount edgeTypes
  rw [hzero] at hnat
  simp only [UInt32.reduceToNat] at hnat
  omega

/-- The labels in use are counted from zero. -/
def InUse (edgeTypes : Int16) (l : Label) : Prop :=
  0 ≤ l.code.toInt ∧ l.code.toInt < max edgeTypes.toInt 1

theorem InUse.toNat_lt (h : InUse edgeTypes l) : l.code.toInt.toNat < labelCount edgeTypes := by
  have hlt := h.2
  rw [labelCount]
  omega

theorem InUse.ofNat_toNat (h : InUse edgeTypes l) :
    (⟨Int16.ofNat l.code.toInt.toNat⟩ : Label) = l := by
  have hlt := h.toNat_lt
  have hcount := labelCount_lt edgeTypes
  refine congrArg Label.mk (Int16.toInt_inj.mp ?_)
  rw [Int16.toInt_ofNat_of_lt (by omega)]
  exact Int.toNat_of_nonneg h.1

theorem labelBelow_yields (tries : Nat) (source : Source γ) (edgeTypes : Int16) :
    Yields (labelBelow tries source (UInt32.ofNat (labelCount edgeTypes))) (InUse edgeTypes) := by
  refine (drawBelow_yields tries source exactZone (labelCount_ne_zero edgeTypes)).bind fun n hn =>
    Yields.pure ?_
  have hcount := labelCount_lt edgeTypes
  rw [UInt32.lt_iff_toNat_lt, toNat_labelCount] at hn
  have hcode : (Int16.ofNat n.toNat).toInt = n.toNat := Int16.toInt_ofNat_of_lt (by omega)
  rw [labelCount] at hn
  refine ⟨?_, ?_⟩
  · rw [hcode]
    omega
  · rw [hcode]
    omega

theorem exists_labelBelow_reads (h : InUse edgeTypes l) :
    ∃ words, Reads (labelBelow (tries + 1) fromWords (UInt32.ofNat (labelCount edgeTypes))) words
      l := by
  have hcode := h.toNat_lt
  have hcount := labelCount_lt edgeTypes
  have hnat : (UInt32.ofNat l.code.toInt.toNat).toNat = l.code.toInt.toNat :=
    UInt32.toNat_ofNat_of_lt' (by simp only [UInt32.size]; omega)
  have hbelow : UInt32.ofNat l.code.toInt.toNat < UInt32.ofNat (labelCount edgeTypes) := by
    rw [UInt32.lt_iff_toNat_lt, hnat, toNat_labelCount]
    exact hcode
  obtain ⟨w, hw⟩ : ∃ w, Reads (drawBelow (tries + 1) fromWords exactZone
      (UInt32.ofNat (labelCount edgeTypes))) [w] (UInt32.ofNat l.code.toInt.toNat) :=
    exists_drawBelow_reads hbelow (le_exactZone (by rw [toNat_labelCount]; omega))
  have hread : Reads (labelBelow (tries + 1) fromWords (UInt32.ofNat (labelCount edgeTypes)))
      ([w] ++ []) ⟨Int16.ofNat (UInt32.ofNat l.code.toInt.toNat).toNat⟩ := hw.bind (Reads.pure _)
  rw [hnat, h.ofNat_toNat] at hread
  exact ⟨_, hread⟩

/-! ## Edges -/

/-- The edge may be drawn over some vertices: it is no self loop, and its vertices and its label
are below their bounds. -/
structure Fits (vertices : UInt32) (edgeTypes : Int16) (e : Edge) : Prop where
  loopless : e.source ≠ e.target
  source_lt : e.source < vertices
  target_lt : e.target < vertices
  label : InUse edgeTypes e.label

/-- **An edge that is drawn fits**, if any is. -/
theorem drawEdge_yields (tries : Nat) (source : Source γ) (edgeTypes : Int16)
    (h : vertices ≠ 0) :
    Yields (drawEdge tries source vertices (UInt32.ofNat (labelCount edgeTypes)))
      fun drawn => ∀ e, drawn = some e → Fits vertices edgeTypes e := by
  refine (drawBelow_yields tries source shiftedZone h).bind fun a ha =>
    (drawBelow_yields tries source shiftedZone h).bind fun b hb => ?_
  by_cases hab : a = b
  · rw [if_pos hab]
    exact Yields.pure (by simp)
  · rw [if_neg hab]
    refine (labelBelow_yields tries source edgeTypes).bind fun l hl => Yields.pure ?_
    rintro e ⟨⟩
    exact ⟨hab, ha, hb, hl⟩

theorem drawEdge_extends (source : Source γ) (vertices types : UInt32) (h : tries ≤ tries') :
    Extends (drawEdge tries source vertices types) (drawEdge tries' source vertices types) := by
  refine (drawBelow_extends source shiftedZone vertices h).bind fun a =>
    (drawBelow_extends source shiftedZone vertices h).bind fun b => ?_
  by_cases hab : a = b
  · rw [if_pos hab, if_pos hab]
    exact Extends.refl _
  · rw [if_neg hab, if_neg hab]
    refine Extends.bind ?_ fun l => Extends.refl _
    exact (drawBelow_extends source exactZone types h).bind fun n => Extends.refl _

theorem exists_drawEdge_reads (h : Fits vertices edgeTypes e) :
    ∃ words, Reads (drawEdge (tries + 1) fromWords vertices (UInt32.ofNat (labelCount edgeTypes)))
      words (some e) := by
  obtain ⟨w, hsource⟩ := exists_drawBelow_reads h.source_lt (le_shiftedZone vertices)
  obtain ⟨w', htarget⟩ := exists_drawBelow_reads h.target_lt (le_shiftedZone vertices)
  obtain ⟨words, hlabel⟩ := exists_labelBelow_reads h.label
  refine ⟨[w] ++ ([w'] ++ (words ++ [])), hsource.bind (htarget.bind ?_)⟩
  rw [if_neg h.loopless]
  exact hlabel.bind (Reads.pure _)

/-! ## Lists of edges -/

/-- The edges found so far are those that were seen; they are distinct and fit. -/
structure Collected (vertices : UInt32) (edgeTypes : Int16) (seen : Std.HashSet Edge)
    (found : List Edge) : Prop where
  seen_iff : ∀ e, e ∈ seen ↔ e ∈ found
  distinct : found.Nodup
  fitting : ∀ e ∈ found, Fits vertices edgeTypes e

theorem Collected.empty : Collected vertices edgeTypes ∅ [] :=
  ⟨by simp, List.nodup_nil, by simp⟩

/-- **A new edge is collected.** -/
theorem Collected.insert (h : Collected vertices edgeTypes seen found)
    (hfits : Fits vertices edgeTypes e) (hnew : e ∉ seen) :
    Collected vertices edgeTypes (seen.insert e) (e :: found) where
  seen_iff e' := by
    rw [Std.HashSet.mem_insert, beq_iff_eq, List.mem_cons, h.seen_iff, eq_comm]
  distinct := List.nodup_cons.mpr ⟨fun hmem => hnew ((h.seen_iff e).mpr hmem), h.distinct⟩
  fitting := List.forall_mem_cons.mpr ⟨hfits, h.fitting⟩

/-- **A run collects the wanted number of further edges.** -/
theorem drawEdges_yields (tries rounds : Nat) (source : Source γ)
    (hvertices : wanted ≠ 0 → vertices ≠ 0) (h : Collected vertices edgeTypes seen found) :
    Yields (drawEdges tries source vertices (UInt32.ofNat (labelCount edgeTypes)) rounds wanted seen
      found) fun list => list.length = found.length + wanted ∧ list.Nodup ∧
        ∀ e ∈ list, Fits vertices edgeTypes e := by
  intro s outcome hends
  -- The ways a round may go: nothing is wanted, no round is left, the drawing of an edge stops or
  -- fails, it gives a self loop, an edge that was seen, or a new one.
  fun_induction drawEdges tries source vertices (UInt32.ofNat (labelCount edgeTypes)) rounds wanted
    seen found s with
  | case1 rounds seen found s =>
    cases hends
    exact ⟨_, s, rfl, by simp, List.nodup_reverse.mpr h.distinct, by simpa using h.fitting⟩
  | case2 => cases hends
  | case3 => cases hends
  | case4 rounds wanted seen found s cause hdraw =>
    have hvertices' : vertices ≠ 0 := hvertices (Nat.succ_ne_zero _)
    exact absurd hdraw (drawEdge_yields tries source edgeTypes hvertices').ne_error
  | case5 rounds wanted seen found s next hdraw ih => exact ih hvertices h hends
  | case6 rounds wanted seen found s e next hdraw hseen ih => exact ih hvertices h hends
  | case7 rounds wanted seen found s e next hdraw hnew ih =>
    have hvertices' : vertices ≠ 0 := hvertices (Nat.succ_ne_zero _)
    have hfits := (drawEdge_yields tries source edgeTypes hvertices').of_ok hdraw e rfl
    obtain ⟨list, s', rfl, hlength, hrest⟩ := ih (fun _ => hvertices')
      (h.insert hfits (by simpa using hnew)) hends
    refine ⟨list, s', rfl, ?_, hrest⟩
    rw [hlength, List.length_cons]
    omega

/-- **The limits do not change a run that ends.** -/
theorem drawEdges_extends (source : Source γ) (vertices types : UInt32) (htries : tries ≤ tries')
    (hrounds : rounds ≤ rounds') (wanted : Nat) (seen : Std.HashSet Edge) (found : List Edge) :
    Extends (drawEdges tries source vertices types rounds wanted seen found)
      (drawEdges tries' source vertices types rounds' wanted seen found) := by
  have hextends := drawEdge_extends source vertices types htries
  intro s outcome hends
  fun_induction drawEdges tries source vertices types rounds wanted seen found s generalizing rounds'
    with
  | case1 rounds seen found s =>
    cases rounds' <;> exact hends
  | case2 => cases hends
  | case3 => cases hends
  | case4 rounds wanted seen found s cause hdraw =>
    obtain ⟨more, rfl⟩ := Nat.exists_eq_add_of_lt hrounds
    rw [drawEdges, hextends s _ hdraw]
    exact hends
  | case5 rounds wanted seen found s next hdraw ih =>
    obtain ⟨more, rfl⟩ := Nat.exists_eq_add_of_lt hrounds
    rw [drawEdges, hextends s _ hdraw]
    exact ih (Nat.le_add_right ..) hends
  | case6 rounds wanted seen found s e next hdraw hseen ih =>
    obtain ⟨more, rfl⟩ := Nat.exists_eq_add_of_lt hrounds
    rw [drawEdges, hextends s _ hdraw]
    simp only [if_pos hseen]
    exact ih (Nat.le_add_right ..) hends
  | case7 rounds wanted seen found s e next hdraw hnew ih =>
    obtain ⟨more, rfl⟩ := Nat.exists_eq_add_of_lt hrounds
    rw [drawEdges, hextends s _ hdraw]
    simp only [if_neg hnew]
    exact ih (Nat.le_add_right ..) hends

/-- **Further edges may be collected in any order**, each in a round of its own. -/
theorem exists_drawEdges_reads (tries : Nat) {more : List Edge}
    (h : Collected vertices edgeTypes seen found) (hfits : ∀ e ∈ more, Fits vertices edgeTypes e)
    (hdistinct : (found.reverse ++ more).Nodup) :
    ∃ words, Reads (drawEdges (tries + 1) fromWords vertices (UInt32.ofNat (labelCount edgeTypes))
      more.length more.length seen found) words (found.reverse ++ more) := by
  induction more generalizing seen found with
  | nil =>
    rw [List.append_nil]
    exact ⟨[], fun rest => rfl⟩
  | cons e more ih =>
    obtain ⟨hfits, hmore⟩ := List.forall_mem_cons.mp hfits
    have hnew : e ∉ seen := by
      rw [h.seen_iff]
      intro hmem
      exact (List.nodup_append.mp hdistinct).2.2 e (List.mem_reverse.mpr hmem) e
        List.mem_cons_self rfl
    have hassoc : found.reverse ++ e :: more = (e :: found).reverse ++ more := by simp
    obtain ⟨words, hdraw⟩ := exists_drawEdge_reads hfits
    obtain ⟨words', hrest⟩ := ih (h.insert hfits hnew) hmore (hassoc ▸ hdistinct)
    refine ⟨words ++ words', fun rest => ?_⟩
    rw [List.length_cons, drawEdges, List.append_assoc, hdraw, hassoc]
    simp only
    rw [if_neg (by simpa using hnew)]
    exact hrest rest

/-! ## Numbers of edges -/

/-- How many edges fit. -/
def edgeCount (vertices : UInt32) (edgeTypes : Int16) : Nat :=
  vertices.toNat * (vertices.toNat - 1) * labelCount edgeTypes

/-- The number is computed exactly unless it exceeds 64 bits. -/
theorem toNat_edgeCapacity (h : edgeCount vertices edgeTypes < 2 ^ 64) :
    (edgeCapacity vertices edgeTypes).toNat = edgeCount vertices edgeTypes := by
  have hvertices := vertices.toNat_lt
  have hlabels := labelCount_lt edgeTypes
  have hpairs : vertices.toNat * (vertices.toNat - 1) < 2 ^ 64 :=
    Nat.mul_lt_mul'' (c := 2 ^ 32) (d := 2 ^ 32) hvertices (by omega)
  have hpred : (UInt64.ofNat (vertices.toNat - 1)).toNat = vertices.toNat - 1 :=
    UInt64.toNat_ofNat_of_lt' (by simp only [UInt64.size]; omega)
  have hcount : (UInt64.ofNat (labelCount edgeTypes)).toNat = labelCount edgeTypes :=
    UInt64.toNat_ofNat_of_lt' (by simp only [UInt64.size]; omega)
  rw [edgeCapacity, UInt64.toNat_mul, UInt64.toNat_mul, UInt32.toNat_toUInt64, hpred, hcount,
    Nat.mod_eq_of_lt hpairs]
  exact Nat.mod_eq_of_lt h

theorem edgeCount_of_lt_two (h : vertices < 2) : edgeCount vertices edgeTypes = 0 := by
  have hlt : vertices.toNat < 2 := UInt32.lt_iff_toNat_lt.mp h
  have hone : vertices.toNat = 0 ∨ vertices.toNat - 1 = 0 := by omega
  rw [edgeCount, Nat.mul_eq_zero.mpr hone, Nat.zero_mul]

/-- No more edges fit than are counted. -/
theorem exists_finset_of_fits (vertices : UInt32) (edgeTypes : Int16) :
    ∃ all : Finset Edge, all.card ≤ edgeCount vertices edgeTypes ∧
      ∀ e, Fits vertices edgeTypes e → e ∈ all := by
  let edgeOf : (Nat × Nat) × Nat → Edge := fun x =>
    ⟨UInt32.ofNat x.1.1, UInt32.ofNat x.1.2, ⟨Int16.ofNat x.2⟩⟩
  let triples := (Finset.range vertices.toNat).offDiag ×ˢ Finset.range (labelCount edgeTypes)
  refine ⟨triples.image edgeOf, ?_, fun e he => ?_⟩
  · refine Finset.card_image_le.trans (Nat.le_of_eq ?_)
    rw [Finset.card_product, Finset.offDiag_card, Finset.card_range, Finset.card_range, edgeCount,
      Nat.mul_sub_one]
  · refine Finset.mem_image.mpr
      ⟨((e.source.toNat, e.target.toNat), e.label.code.toInt.toNat), ?_, ?_⟩
    · refine Finset.mem_product.mpr ⟨Finset.mem_offDiag.mpr ⟨?_, ?_, ?_⟩, ?_⟩
      · exact Finset.mem_range.mpr (UInt32.lt_iff_toNat_lt.mp he.source_lt)
      · exact Finset.mem_range.mpr (UInt32.lt_iff_toNat_lt.mp he.target_lt)
      · exact fun heq => he.loopless (UInt32.toNat.inj heq)
      · exact Finset.mem_range.mpr he.label.toNat_lt
    · simp only [edgeOf, UInt32.ofNat_toNat, he.label.ofNat_toNat]

/-! ## The shape of a list -/

/-- What a list is drawn for. -/
structure Call where
  vertices : UInt32
  edges : Nat
  edgeTypes : Int16

namespace Call

/-- How many edges fit. -/
def room (c : Call) : Nat := edgeCount c.vertices c.edgeTypes

/-- Draws the list. -/
def draw (c : Call) (limit : Nat) (source : Source γ) : Drawing γ (List Edge) :=
  drawList limit source c.vertices c.edges c.edgeTypes

/-- The list is drawn, and leaves the source in a state, when no limit stops the drawing. -/
def Returns (c : Call) (source : Source γ) (s : γ) (list : List Edge) (s' : γ) : Prop :=
  ∃ limit, c.draw limit source s = some (.ok (list, s'))

/-- The list has as many edges as were asked for, or as many as fit; it has each edge once, and
all of them fit. When as many are asked for as fit, it has them all. -/
structure Shapes (c : Call) (list : List Edge) : Prop where
  length : list.length = min c.edges c.room
  distinct : list.Nodup
  fitting : ∀ e ∈ list, Fits c.vertices c.edgeTypes e
  complete : c.room ≤ c.edges → ∀ e, Fits c.vertices c.edgeTypes e → e ∈ list

end Call

variable {c : Call}

/-- **A list of all the distinct edges there is room for has each of them.** -/
theorem mem_of_fits (hlength : list.length = edgeCount vertices edgeTypes)
    (hdistinct : list.Nodup) (hfitting : ∀ e ∈ list, Fits vertices edgeTypes e)
    (he : Fits vertices edgeTypes e) : e ∈ list := by
  obtain ⟨all, hcard, hall⟩ := exists_finset_of_fits vertices edgeTypes
  have hsubset : list.toFinset ⊆ all := fun e' he' =>
    hall e' (hfitting e' (List.mem_toFinset.mp he'))
  have heq : list.toFinset = all := Finset.eq_of_subset_of_card_le hsubset <| by
    rw [List.toFinset_card_of_nodup hdistinct, hlength]
    exact hcard
  rw [← List.mem_toFinset, heq]
  exact hall e he

/-- **A drawing that ends, ends with a list of its shape.** -/
theorem draw_yields (limit : Nat) (source : Source γ) (h : c.room < 2 ^ 64) :
    Yields (c.draw limit source) c.Shapes := by
  have hcapacity : (edgeCapacity c.vertices c.edgeTypes).toNat = c.room := toNat_edgeCapacity h
  have hvertices : min c.edges (edgeCapacity c.vertices c.edgeTypes).toNat ≠ 0 →
      c.vertices ≠ 0 := by
    intro hwanted hzero
    have hroom : c.room = 0 := edgeCount_of_lt_two (by rw [hzero]; decide)
    rw [hcapacity, hroom] at hwanted
    exact hwanted (Nat.min_zero _)
  intro s outcome hends
  obtain ⟨list, s', rfl, hlength, hdistinct, hfitting⟩ :=
    drawEdges_yields limit limit source hvertices Collected.empty s outcome hends
  rw [List.length_nil, Nat.zero_add, hcapacity] at hlength
  refine ⟨list, s', rfl, hlength, hdistinct, hfitting, fun hall e he => ?_⟩
  exact mem_of_fits (hlength.trans (Nat.min_eq_right hall)) hdistinct hfitting he

theorem Call.Returns.shapes (hlist : c.Returns source s list s') (h : c.room < 2 ^ 64) :
    c.Shapes list := by
  obtain ⟨limit, hdraw⟩ := hlist
  exact (draw_yields limit source h).of_ok hdraw

theorem draw_extends (c : Call) (source : Source γ) (h : limit ≤ limit') :
    Extends (c.draw limit source) (c.draw limit' source) :=
  drawEdges_extends source _ _ h h _ _ _

/-- With fewer than two vertices the source is left as it is. -/
theorem draw_of_lt_two (limit : Nat) (source : Source γ) (s : γ) (h : c.vertices < 2) :
    c.draw limit source s = some (.ok ([], s)) := by
  have hroom : edgeCount c.vertices c.edgeTypes = 0 := edgeCount_of_lt_two h
  have hcapacity : (edgeCapacity c.vertices c.edgeTypes).toNat = 0 :=
    (toNat_edgeCapacity (by omega)).trans hroom
  rw [Call.draw, drawList, hcapacity, Nat.min_zero]
  cases limit <;> rfl

/-- **Every list of the shape may be drawn.** -/
theorem Call.Shapes.exists_returns (hlist : c.Shapes list) (h : c.room < 2 ^ 64) :
    ∃ words, c.Returns fromWords words list [] := by
  have hcapacity : (edgeCapacity c.vertices c.edgeTypes).toNat = c.room := toNat_edgeCapacity h
  obtain ⟨words, hdraw⟩ := exists_drawEdges_reads list.length Collected.empty hlist.fitting
    hlist.distinct
  have hends := drawEdges_extends fromWords c.vertices (UInt32.ofNat (labelCount c.edgeTypes))
    (Nat.le_refl _) (Nat.le_succ list.length) _ _ _ _ _ (hdraw [])
  rw [List.append_nil] at hends
  refine ⟨words, list.length + 1, ?_⟩
  rw [Call.draw, drawList, hcapacity, ← hlist.length]
  exact hends

theorem returns_of_edgeList (h : edgeList source c.vertices c.edges c.edgeTypes s = some (list, s')) :
    c.Returns source s list s' := by
  rw [edgeList] at h
  split at h
  · rename_i drawn hdraw
    cases h
    exact ⟨practicalLimit, hdraw⟩
  · cases h

/-! ## Series of lists -/

/-- The lists of several calls, each of which goes on with the source where the one before it
stopped. -/
inductive Series (source : Source γ) : List Call → γ → List (List Edge) → γ → Prop
  | nil {s : γ} : Series source [] s [] s
  | cons {c : Call} {calls : List Call} {list : List Edge} {lists : List (List Edge)}
      {s next last : γ} : c.Returns source s list next → Series source calls next lists last →
        Series source (c :: calls) s (list :: lists) last

/-- **Each list of a series has its shape.** -/
theorem Series.shapes {calls : List Call} {lists : List (List Edge)}
    (h : Series source calls s lists s') (hroom : ∀ c ∈ calls, c.room < 2 ^ 64) :
    List.Forall₂ Call.Shapes calls lists := by
  induction h with
  | nil => exact .nil
  | cons hlist _ ih =>
    obtain ⟨hfirst, hrest⟩ := List.forall_mem_cons.mp hroom
    exact .cons (hlist.shapes hfirst) (ih hrest)

/-- **Random edge lists have the promised shape**, for every source in every state, as long as the
number of edges that fit is below 64 bits. Nothing is drawn from an empty range, and with fewer
than two vertices nothing is drawn at all; a list that is returned has its shape, and so has each
list of a series. What is drawn does not depend on the limit, and the shape says no more than it
must: every list that has it is returned for some words. -/
theorem edgeList_shapes :
    (∀ (γ : Type) (source : Source γ) (s : γ) (c : Call), c.room < 2 ^ 64 →
      (∀ limit, c.draw limit source s ≠ some (.error .emptyRange)) ∧
        (c.vertices < 2 → ∀ limit, c.draw limit source s = some (.ok ([], s))) ∧
        (∀ list s', c.Returns source s list s' → c.Shapes list) ∧
        ∀ list s', edgeList source c.vertices c.edges c.edgeTypes s = some (list, s') →
          c.Returns source s list s') ∧
    (∀ (γ : Type) (source : Source γ) (s s' : γ) (calls : List Call) (lists : List (List Edge)),
      (∀ c ∈ calls, c.room < 2 ^ 64) → Series source calls s lists s' →
        List.Forall₂ Call.Shapes calls lists) ∧
    (∀ (γ : Type) (source : Source γ) (s : γ) (c : Call) (limit limit' : Nat) outcome,
      limit ≤ limit' → c.draw limit source s = some outcome →
        c.draw limit' source s = some outcome) ∧
    (∀ (c : Call) (list : List Edge), c.room < 2 ^ 64 → c.Shapes list →
      ∃ words, c.Returns fromWords words list []) := by
  refine ⟨fun γ source s c h => ⟨fun limit => (draw_yields limit source h).ne_error,
      fun hfew limit => draw_of_lt_two limit source s hfew, fun list s' hlist => hlist.shapes h,
      fun list s' hlist => returns_of_edgeList hlist⟩,
    fun γ source s s' calls lists hroom hlists => hlists.shapes hroom,
    fun γ source s c limit limit' outcome h => draw_extends c source h s outcome,
    fun c list h hlist => hlist.exists_returns h⟩

/-- Two vertices and no label but zero, with more edges asked for than the two that fit. A word is
turned down, a self loop is dropped and an edge comes up twice before both are found. A list over
one vertex takes no words, and from other words the two edges come in the other order. -/
theorem edgeList_shapes_two_vertices :
    let words : List UInt32 :=
      [0x40000000, 0, 0, 0x80000000, 0, 5, 0x80000000, 0, 9, 0, 0x80000000, 7]
    let list : List Edge := [⟨1, 0, .plain⟩, ⟨0, 1, .plain⟩]
    let single : Call := ⟨1, 7, 5⟩
    let double : Call := ⟨2, 7, -3⟩
    (single.draw 4 fromWords words = some (.ok ([], words)) ∧
        single.draw 4 fromWords words ≠ some (.error .emptyRange)) ∧
      (edgeList fromWords 2 7 (-3) words = some (list, []) ∧ double.Shapes list) ∧
      List.Forall₂ Call.Shapes [single, double] [[], list] ∧
      ∃ words, double.Returns fromWords words list.reverse [] := by
  intro words list single double
  obtain ⟨hcall, hseries, hlimit, hshaped⟩ := edgeList_shapes
  obtain ⟨hrange, hnone, -⟩ := hcall _ fromWords words single (by decide)
  obtain ⟨-, -, hshapes, hreturns⟩ := hcall _ fromWords words double (by decide)
  have hempty : single.draw 4 fromWords words = some (.ok ([], words)) := hnone (by decide) 4
  have hrun : drawEdges 4 fromWords 2 1 4 2 ∅ [] words = some (.ok (list, [])) := by
    simp +decide [words, drawEdges, drawEdge, vertexBelow, labelBelow, drawBelow, drawAccepted,
      fromWords, bind_apply, pure_apply, highHalf]
    rfl
  have hdraw : double.draw 4 fromWords words = some (.ok (list, [])) := by
    have hcapacity : (edgeCapacity 2 (-3)).toNat = 2 := by decide
    have hcount : labelCount (-3) = 1 := by decide
    simp only [double, Call.draw, drawList, hcapacity, hcount]
    exact hrun
  have hlist : edgeList fromWords 2 7 (-3) words = some (list, []) := by
    have hpractical : drawList practicalLimit fromWords 2 7 (-3) words = some (.ok (list, [])) :=
      hlimit _ fromWords words double 4 practicalLimit _ (by decide) hdraw
    rw [edgeList, hpractical]
  have hshape : double.Shapes list := hshapes list [] (hreturns list [] hlist)
  have hreverse : double.Shapes list.reverse :=
    ⟨hshape.length, by decide, fun e he => hshape.fitting e (List.mem_reverse.mp he),
      fun hall e he => List.mem_reverse.mpr (hshape.complete hall e he)⟩
  exact ⟨⟨hempty, hrange 4⟩, ⟨hlist, hshape⟩,
    hseries _ fromWords words [] [single, double] [[], list] (by decide)
      (.cons ⟨4, hempty⟩ (.cons ⟨4, hdraw⟩ .nil)),
    hshaped double list.reverse (by decide) hreverse⟩

end Random
end DeltaMatch

/-
Conflict resolution between copies of one key.

Three places of the backend compare copies: `chooseNewer` on the read path,
`isHigherVersion` in the repair queue, and the condition of
`repairLocalReplica`.  Each is written out as the source has it.  `rank` is what
they are for: copies are ordered by version, and at equal versions the smaller
origin ranks higher.
-/
import Mathlib.Order.Lex
import HyperCache.Lib.LastWriter
import HyperCache.Item

namespace HyperCache

variable {V : Type}

/-- `isHigherVersion`: whether `candidate` replaces `existing` in the repair
queue. -/
def isHigherVersion (candidate existing : Item V) : Bool :=
  if candidate.version > existing.version then true
  else if candidate.version < existing.version then false
  else decide (candidate.origin < existing.origin)

/-- `chooseNewer`: the copy of higher version, the smaller origin at a tie, and
the first argument when both agree. -/
def chooseNewer : Option (Item V) → Option (Item V) → Option (Item V)
  | none, b => b
  | some a, none => some a
  | some a, some b =>
      if b.version > a.version then some b
      else if a.version > b.version then some a
      else if b.origin < a.origin then some b
      else some a

/-- The condition under which `repairLocalReplica` overwrites the local copy. -/
def localStale (localIt chosen : Item V) : Bool :=
  decide (localIt.version < chosen.version) ||
    (decide (localIt.version = chosen.version) && decide (localIt.origin > chosen.origin))

/-- The conflict order as a linear order on pairs: greater rank wins. -/
def Item.rank (it : Item V) : UInt64 ×ₗ Strᵒᵈ :=
  toLex (it.version, OrderDual.toDual it.origin)

theorem rank_lt_iff {a b : Item V} :
    a.rank < b.rank ↔ a.version < b.version ∨ a.version = b.version ∧ b.origin < a.origin := by
  rw [Item.rank, Item.rank, Prod.Lex.toLex_lt_toLex, OrderDual.toDual_lt_toDual]

theorem isHigherVersion_iff {a b : Item V} : isHigherVersion a b = true ↔ b.rank < a.rank := by
  rw [rank_lt_iff, isHigherVersion]
  by_cases h₁ : a.version > b.version
  · simp [h₁]
  · by_cases h₂ : a.version < b.version
    · have hne : b.version ≠ a.version := by grind
      simp [h₁, h₂, hne]
    · have heq : b.version = a.version := by grind
      simp [heq]

theorem localStale_iff {a b : Item V} : localStale a b = true ↔ a.rank < b.rank := by
  simp [localStale, rank_lt_iff]

theorem chooseNewer_some (a b : Item V) :
    chooseNewer (some a) (some b) = if isHigherVersion b a then some b else some a := by
  rw [chooseNewer, isHigherVersion]
  by_cases h₁ : b.version > a.version
  · simp [h₁]
  · by_cases h₂ : a.version > b.version
    · simp [h₁, h₂]
    · by_cases h₃ : b.origin < a.origin <;> simp [h₁, h₂, h₃]

theorem chooseNewer_eq_keepGreater (o : Option (Item V)) (b : Item V) :
    chooseNewer o (some b) = LastWriter.keepGreater Item.rank o b := by
  cases o with
  | none => rfl
  | some a =>
      rw [chooseNewer_some, LastWriter.keepGreater]
      by_cases h : a.rank < b.rank
      · rw [if_pos h, if_pos (isHigherVersion_iff.mpr h)]
      · rw [if_neg h, if_neg (fun hh => h (isHigherVersion_iff.mp hh))]

theorem chooseNewer_eq_ite (a b : Item V) :
    chooseNewer (some a) (some b) = if a.rank < b.rank then some b else some a := by
  rw [chooseNewer_eq_keepGreater]
  rfl

theorem rank_eq_iff {a b : Item V} :
    a.rank = b.rank ↔ a.version = b.version ∧ a.origin = b.origin := by
  show toLex (a.version, OrderDual.toDual a.origin) = toLex (b.version, OrderDual.toDual b.origin) ↔
    _
  rw [EmbeddingLike.apply_eq_iff_eq, Prod.mk.injEq, EmbeddingLike.apply_eq_iff_eq]

/-- `collectQuorum` without the counting: the copy chosen from a list of replies. -/
def newestOf (items : List (Item V)) : Option (Item V) :=
  items.foldl (fun chosen it => chooseNewer chosen (some it)) none

theorem newestOf_eq (items : List (Item V)) :
    newestOf items = items.foldl (LastWriter.keepGreater Item.rank) none := by
  unfold newestOf
  congr 1
  funext o it
  exact chooseNewer_eq_keepGreater o it

/-- The three comparisons follow the one order on version and origin, and choosing from
copies in any order ends with a greatest one. -/
theorem comparisons_agree :
    (∀ a b : Item V, a.rank = b.rank ↔ a.version = b.version ∧ a.origin = b.origin) ∧
      (∀ a b : Item V, (isHigherVersion b a = true ↔ a.rank < b.rank) ∧
        (localStale a b = true ↔ a.rank < b.rank) ∧
        chooseNewer (some a) (some b) = if a.rank < b.rank then some b else some a) ∧
      ∀ items replies : List (Item V), items ≠ [] → replies.Perm items →
        ∃ newest ∈ items, newestOf replies = some newest ∧
          ∀ it ∈ items, it.rank ≤ newest.rank := by
  refine ⟨fun a b => rank_eq_iff, fun a b => ?_, fun items replies hne hperm => ?_⟩
  · exact ⟨isHigherVersion_iff, localStale_iff, chooseNewer_eq_ite a b⟩
  · cases replies with
    | nil => exact absurd hperm.nil_eq.symm hne
    | cons first rest =>
        obtain ⟨newest, hfold⟩ : ∃ newest,
            (first :: rest).foldl (LastWriter.keepGreater Item.rank) none = some newest :=
          LastWriter.foldl_keepGreater_isSome Item.rank rest first
        obtain ⟨hmem, -, hmax⟩ := LastWriter.foldl_keepGreater_spec Item.rank hfold
        refine ⟨newest, ?_, (newestOf_eq _).trans hfold, fun it hit => ?_⟩
        · exact hperm.mem_iff.mp (hmem.resolve_left nofun)
        · exact hmax it (hperm.mem_iff.mpr hit)

/-- Two copies of one version from different nodes: the smaller origin is newest either way. -/
theorem comparisons_agree_tie :
    let a : Item Str := { key := [107], value := none, version := 1, origin := [97] }
    let b : Item Str := { key := [107], value := none, version := 1, origin := [98] }
    [b, a] ≠ [] ∧ [a, b].Perm [b, a] ∧ ∃ newest ∈ [b, a], newestOf [a, b] = some newest ∧
      ∀ it ∈ [b, a], it.rank ≤ newest.rank := by
  intro a b
  have hperm : [a, b].Perm [b, a] := List.Perm.swap b a []
  exact ⟨List.cons_ne_nil b [a], hperm,
    comparisons_agree.2.2 [b, a] [a, b] (List.cons_ne_nil b [a]) hperm⟩

end HyperCache

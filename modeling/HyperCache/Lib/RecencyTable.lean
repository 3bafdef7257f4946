/-
A table that gives up its oldest entry is a recency list.
-/
import HyperCache.Lib.Recency
import HyperCache.Lib.RecencyList
import HyperCache.Lib.Table

namespace Tables

namespace Table

variable {α β : Type} [DecidableEq α] {t : Table α β}

omit [DecidableEq α] in
theorem length_entries_le (t : Table α β) : t.entries.entries.length ≤ t.capacity := by
  have hle := t.bounded
  rwa [AList.keys, List.keys, List.length_map] at hle

theorem get_eq (f : β → β) (k : α) (t : Table α β) :
    RecencyList.get k f t.entries.entries =
      ((t.renew f k).entries.entries, t.entries.lookup k) := by
  cases hk : t.entries.lookup k with
  | none => rw [RecencyList.get_of_notMem f hk, entries_renew_of_none f hk]
  | some b =>
      rw [RecencyList.get_of_mem f hk, entries_renew f hk]
      rfl

theorem entries_erase_last {m : AList fun _ : α => β} {k : α}
    (hk : Victim.last.pick m = some k) : (m.erase k).entries = m.entries.dropLast := by
  have hlast : (m.entries.map Sigma.fst).getLast? = some k := hk
  rw [List.getLast?_map] at hlast
  obtain ⟨e, he, rfl⟩ := Option.map_eq_some_iff.mp hlast
  exact RecencyList.kerase_last m.nodupKeys he

theorem set_last_eq {g : Option β → β} {f : β → β} {new : β} (hnew : g none = new)
    (hf : ∀ b, g (some b) = f b) (k : α) (t : Table α β) :
    RecencyList.set t.capacity k g t.entries.entries =
      (t.set .last f new k).entries.entries := by
  have hle := t.length_entries_le
  by_cases hcap : t.capacity = 0
  · have hnil : t.entries.entries = [] := List.eq_nil_of_length_eq_zero (by omega)
    rw [set, dif_pos hcap, RecencyList.set, hcap, List.take_zero, hnil]
  · cases hk : t.entries.lookup k with
    | some b =>
        have hmem : k ∈ t.entries := AList.lookup_isSome.mp (by rw [hk]; rfl)
        rw [RecencyList.set_of_mem _ hk hle, set_of_mem _ _ _ hcap hmem, entries_renew f hk,
          hf]
        rfl
    | none =>
        have hmem : k ∉ t.entries := AList.lookup_eq_none.mp hk
        have hlen : t.entries.keys.length = t.entries.entries.length := List.length_map _
        by_cases hfull : t.entries.entries.length = t.capacity
        · obtain ⟨gone, -, hpick, -⟩ := makeRoom_of_full .last hcap (hlen.trans hfull)
          rw [RecencyList.set_of_full _ hmem hfull (by omega),
            entries_set_of_full _ _ _ hcap hmem (hlen.trans hfull) hpick,
            AList.entries_insert_of_notMem fun hk' => hmem (AList.mem_erase.mp hk').2,
            entries_erase_last hpick, hnew]
        · rw [RecencyList.set_of_room _ hmem (by omega),
            entries_set_of_room _ _ _ hcap hmem (by omega), AList.entries_insert_of_notMem hmem,
            hnew]

theorem evict_last_eq (t : Table α β) :
    RecencyList.evict t.entries.entries =
      ((t.evict .last).1.entries.entries, (t.evict .last).2) := by
  rw [RecencyList.evict]
  cases hlast : t.entries.entries.getLast? with
  | none =>
      rw [List.getLast?_eq_none_iff] at hlast
      have hkeys : t.keys = [] := by
        rw [keys, AList.keys, hlast]
        rfl
      rw [evict_of_nil hkeys, hlast]
      rfl
  | some e =>
      have hpick : Victim.last.pick t.entries = some e.1 := by
        show (t.entries.entries.map Sigma.fst).getLast? = _
        rw [List.getLast?_map, hlast]
        rfl
      have hcap : t.capacity ≠ 0 := by
        have hle := t.length_entries_le
        have hpos := List.length_pos_of_mem (List.mem_of_getLast? hlast)
        omega
      rw [evict_of_pick hcap hpick]
      exact congrArg (·, some e.1) (entries_erase_last hpick).symm

/-! ## The keys alone -/

theorem sublist_keys_erase (k : α) (t : Table α β) : (t.erase k).keys.Sublist t.keys := by
  rw [keys, erase, AList.keys_erase]
  exact List.erase_sublist

theorem keys_evict_last (t : Table α β) :
    (t.evict .last).2 = t.keys.getLast? ∧ (t.evict .last).1.keys = t.keys.dropLast := by
  obtain ⟨hentries, hkey⟩ := Prod.mk.inj t.evict_last_eq
  constructor
  · rw [← hkey, keys, AList.keys, List.keys, List.getLast?_map]
  · rw [keys, AList.keys, ← hentries, List.keys, List.map_dropLast]
    rfl

/-- The keys are listed newest first and cut off at the capacity. -/
theorem keys_set_last (f : β → β) (new : β) (k : α) (t : Table α β) :
    (t.set .last f new k).keys = (Recency.touch k t.keys).take t.capacity := by
  have hset : RecencyList.set t.capacity k (fun o => o.elim new f) t.entries.entries =
      (t.set .last f new k).entries.entries := set_last_eq rfl (fun _ => rfl) k t
  rw [keys, AList.keys, ← hset, RecencyList.set, List.keys, List.map_take, List.map_cons]
  show ((k :: (t.entries.entries.kerase k).keys).take t.capacity) = _
  rw [List.keys_kerase]
  rfl

end Table

end Tables

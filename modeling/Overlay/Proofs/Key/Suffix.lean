import Overlay.Proofs.Key.RoundTrip

/-!
# Writing a base key behind a marker

The key of a merge with the whole tree is a marker and nothing else. A base key that is written behind
it turns it into the key of the same merge at the base key, with all characters of the base key as they
stand. Only a chevron at the front would be read as part of the marker.
-/

namespace Overlay

namespace Marker

variable {table : OperatorTable}

/-- A merge with nothing behind it is spelled in front of any base key that does not continue its
marker. -/
theorem Spells.append_base {body base : List Char} {m : Marker} (h : m.Spells table body)
    (hmerge : m.operator.isMerge = true) (hrest : m.rest = []) (hbase : base.head? ≠ some '>') :
    Spells table { m with rest := base } (body ++ base) := by
  cases h with
  | below hcount hlevel =>
    -- The chevrons end at the star, so nothing behind it is read with them.
    obtain rfl := hrest
    simpa [simple] using @Spells.below table _ _ base hcount hlevel
  | above hcount hlevel =>
    -- Here the chevrons stand last, so the base key must not continue them.
    obtain rfl := hrest
    simpa [simple] using Spells.above hcount hlevel hbase
  | _ => simp [Operator.isMerge] at hmerge

end Marker

namespace Key

variable {table : OperatorTable}

/-- The key of a merge is a marker behind a hash or without one. -/
theorem exists_marker_of_isMerge {raw : String} (h : (parse table raw).operator.isMerge = true) :
    ∃ (spread : Bool) (body : List Char) (m : Marker), raw.toList = hashMark spread ++ body ∧
      m.Spells table body ∧
        parse table raw = ⟨m.operator, String.ofList m.rest, spread || m.spread, false⟩ := by
  have hspelled : Spells table (parse table raw) raw.toList := spells_ofChars table raw.toList
  generalize parse table raw = k at h hspelled
  generalize raw.toList = text at hspelled
  cases hspelled with
  | marked hmarked =>
    cases hmarked with
    | literal => simp [Operator.isMerge] at h
    | @operator spread m body hm => exact ⟨spread, body, m, rfl, hm, rfl⟩
  | bare => simp [Operator.isMerge] at h

/-- The key of a merge with the whole tree becomes that of a merge at a base key when the base key
is written behind it. -/
theorem parse_append {raw base : String} (h : (parse table raw).isRootMerge = true)
    (hbase : base.toList.head? ≠ some '>') :
    parse table (raw ++ base) = { parse table raw with base := base } := by
  obtain ⟨hmerge, hempty⟩ := Bool.and_eq_true_iff.1 h
  obtain ⟨spread, body, m, hraw, hm, hparse⟩ := exists_marker_of_isMerge hmerge
  have hnil : m.rest = [] := by
    rw [hparse] at hempty
    simpa [identity] using hempty
  have hmerge' : m.operator.isMerge = true := by rwa [hparse] at hmerge
  have happend := Marked.operator spread (hm.append_base hmerge' hnil hbase)
  rw [parse, String.toList_append, hraw, List.append_assoc, ofChars_of_marked happend, hparse,
    String.ofList_toList]

/-- A base key that is empty or starts with a chevron is written as it stands. -/
theorem encode_plain_of_head {base : String} (h : base = "" ∨ base.toList.head? = some '>') :
    (plain base).encode table = base := by
  have hread : ofChars table base.toList = ⟨.assign, base, false, false⟩ := by
    rcases h with rfl | h
    · rfl
    · obtain ⟨rest, hrest⟩ := List.head?_eq_some_iff.1 h
      rw [← String.ofList_toList (s := base), String.toList_ofList, hrest]
      rfl
  change String.ofList (if (ofChars table base.toList).agrees (plain base) then base.toList else _) =
    base
  rw [hread, if_pos (by simp [agrees, plain]), String.ofList_toList]

end Key

end Overlay

import Overlay.Proofs.Key.RoundTrip

/-!
# Canonical keys

Of all spellings of a key one is canonical: the one in which the key is written. Keys are written alike
exactly if they have the same operator, base key and spread, so canonical texts tell identities apart. A
text is canonical unless it has an escape that it does not need, a hash in front of the parentheses of a
custom operator, or more chevrons than the greatest level.
-/

namespace Overlay

/-- The markers of merges whose chevrons are more than the greatest level. -/
inductive Marker.Overlong : List Char → Prop
  | below {count : Nat} (base : List Char) (h : 4294967295 < count) :
      Overlong (List.replicate count '<' ++ '*' :: base)
  | above {count : Nat} {base : List Char} (h : 4294967295 < count) (hbase : base.head? ≠ some '>') :
      Overlong ('*' :: (List.replicate count '>' ++ base))

/-- A marker that is not overlong is written as it is spelled, if it has no hash of its own. -/
theorem Marker.marker_append_rest {table : OperatorTable} {m : Marker} {body : List Char}
    (h : m.Spells table body) (hlong : ¬ Overlong body) (hspread : m.spread = false) :
    m.operator.marker ++ m.rest = body := by
  cases h with
  | add | multiply | prepend | append => rfl
  | @below count level rest hcount hlevel =>
    have hle : count ≤ 4294967295 := Nat.le_of_not_lt fun hlt => hlong (.below rest hlt)
    rw [Nat.min_eq_left hle] at hlevel
    simp [Operator.marker, hlevel]
  | @above count level rest hcount hlevel hrest =>
    have hle : count ≤ 4294967295 := Nat.le_of_not_lt fun hlt => hlong (.above hlt hrest)
    rw [Nat.min_eq_left hle] at hlevel
    simp [Operator.marker, hlevel]
  | custom spread _ =>
    obtain rfl : spread = false := hspread
    simp [Operator.marker]

/-- An overlong marker spells a merge that has fewer chevrons when it is written. -/
theorem Marker.Overlong.exists_spells {body : List Char} (h : Overlong body) (table : OperatorTable) :
    ∃ side level rest, (simple (.merge side level) rest).Spells table body ∧
      ((Operator.merge side level).marker ++ rest).length < body.length := by
  cases h with
  | @below count base hlong =>
    have hlevel := levelOfCount_eq_iff.1 (rfl : levelOfCount count = _)
    refine ⟨.below, _, base, .below (by omega) hlevel, ?_⟩
    simp [Operator.marker]
    omega
  | @above count base hlong hbase =>
    have hlevel := levelOfCount_eq_iff.1 (rfl : levelOfCount count = _)
    refine ⟨.above, _, base, .above (by omega) hlevel hbase, ?_⟩
    simp [Operator.marker]
    omega

namespace Key

variable {table : OperatorTable}

/-- The canonical spelling of a key. -/
def canonical (table : OperatorTable) (raw : String) : String := (parse table raw).encode table

/-- The texts that are no canonical spellings. -/
inductive Respelled (table : OperatorTable) : List Char → Prop
  | escape (spread : Bool) (base : List Char)
      (h : (ofChars table (hashMark spread ++ base)).agrees
        ⟨.assign, String.ofList base, spread, false⟩ = true) :
      Respelled table (hashMark spread ++ '(' :: ')' :: base)
  | hash (spread : Bool) {name : String} (base : List Char) (h : table.contains name = true) :
      Respelled table ('#' :: '(' :: (hashMark spread ++ name.toList ++ ')' :: base))
  | chevrons (spread : Bool) {body : List Char} (h : Marker.Overlong body) :
      Respelled table (hashMark spread ++ body)

/-- An operator that is not plain is written as a hash, its marker and the base key; the hash of a
custom operator stands inside its marker. -/
theorem toChars_operator {k : Key} (h : k.operator.isAssign = false)
    (hcustom : ∀ name, k.operator = .custom name → k.spread = false) :
    k.toChars table = hashMark k.spread ++ (k.operator.marker ++ k.base.toList) := by
  obtain ⟨operator, base, spread, literal⟩ := k
  cases operator with
  | assign => simp [Operator.isAssign] at h
  | custom name =>
    obtain rfl : spread = false := hcustom name rfl
    simp [toChars, Operator.marker, hash]
  | _ => simp [toChars]

/-- A text that needs no other spelling is written as it stands. -/
theorem toChars_of_spells {k : Key} {text : List Char} (h : Spells table k text)
    (hkept : ¬ Respelled table text) : k.toChars table = text := by
  have hread := ofChars_of_spells h
  cases h with
  | bare spread base =>
    simp only [toChars, hash_eq_hashMark, String.toList_ofList]
    rw [if_pos (by rw [hread, agrees_iff]; simp)]
  | marked h =>
    cases h with
    | literal spread base =>
      simp only [toChars, hash_eq_hashMark, String.toList_ofList]
      rw [if_neg fun hplain => hkept (.escape spread base (by simpa [agrees] using hplain))]
    | @operator spread m body hm =>
      have hwritten := Marker.marker_append_rest hm fun hlong => hkept (.chevrons spread hlong)
      have hoperator : m.operator.isAssign = false := by cases hm <;> rfl
      cases hm with
      | @custom name rest inside hname =>
        -- A hash is written inside the parentheses, so one in front of them would be respelled.
        cases spread with
        | true => exact absurd (.hash inside rest hname) hkept
        | false => cases inside <;> simp [toChars, hash]
      | _ =>
        rw [toChars_operator hoperator (by simp), String.toList_ofList, hwritten rfl]
        simp

/-- The other spellings are not written. -/
theorem toChars_ne_of_respelled {text : List Char} (h : Respelled table text) :
    (ofChars table text).toChars table ≠ text := by
  cases h with
  | escape spread base h =>
    rw [ofChars_of_marked (.literal spread base)]
    simp only [toChars, hash_eq_hashMark, String.toList_ofList]
    rw [if_pos (by simpa [agrees] using h)]
    intro heq
    have hlength := congrArg List.length heq
    simp at hlength
    omega
  | hash spread base h =>
    rw [show '#' :: '(' :: (hashMark spread ++ _ ++ ')' :: base) =
      hashMark true ++ ('(' :: (hashMark spread ++ _ ++ ')' :: base)) from rfl,
      ofChars_of_marked (.operator true (.custom spread h))]
    simp [toChars]
  | chevrons spread h =>
    obtain ⟨side, level, rest, hspells, hshorter⟩ := h.exists_spells table
    intro heq
    have hlength := congrArg List.length heq
    rw [ofChars_of_marked (.operator spread hspells), toChars_operator rfl (by simp)]
      at hlength
    simp at hlength hshorter
    omega

/-- A key that is written for another has its operator, base key and spread. -/
theorem agrees_parse_canonical (table : OperatorTable) (raw : String) :
    (parse table (canonical table raw)).agrees (parse table raw) = true := by
  simpa [parse, canonical, encode] using agrees_ofChars_toChars (writable_parse table raw)

/-- Canonical spellings: writing a key that was written changes nothing, keys are written alike exactly
if they have the same operator, base key and spread, and a text is written otherwise exactly if it has an
escape that is not needed, a hash in front of the parentheses of a custom operator, or more chevrons than
the greatest level. -/
theorem canonical_spelling (table : OperatorTable) :
    (∀ raw, canonical table (canonical table raw) = canonical table raw) ∧
      (∀ raw raw', canonical table raw = canonical table raw' ↔
        (parse table raw).operator = (parse table raw').operator ∧
          (parse table raw).base = (parse table raw').base ∧
            (parse table raw).spread = (parse table raw').spread) ∧
      ∀ raw, canonical table raw ≠ raw ↔ Respelled table raw.toList := by
  refine ⟨fun raw => encode_parse_encode (writable_parse table raw), fun raw raw' => ?_, fun raw => ?_⟩
  · rw [← agrees_iff]
    refine ⟨fun h => ?_, encode_eq_of_agrees⟩
    obtain ⟨hoperator, hbase, hspread⟩ := agrees_iff.1 (agrees_parse_canonical table raw)
    obtain ⟨hoperator', hbase', hspread'⟩ := agrees_iff.1 (agrees_parse_canonical table raw')
    rw [h] at hoperator hbase hspread
    exact agrees_iff.2 ⟨hoperator.symm.trans hoperator', hbase.symm.trans hbase',
      hspread.symm.trans hspread'⟩
  · have htext : canonical table raw = raw ↔
        (ofChars table raw.toList).toChars table = raw.toList := by
      rw [← String.toList_inj, canonical, encode, String.toList_ofList]
      rfl
    rw [ne_eq, htext]
    refine ⟨fun hne => Classical.byContradiction fun hkept => ?_, toChars_ne_of_respelled⟩
    exact hne (toChars_of_spells (spells_ofChars table raw.toList) hkept)

end Key

end Overlay

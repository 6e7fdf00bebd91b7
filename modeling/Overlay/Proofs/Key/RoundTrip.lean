import Overlay.Key.Printer
import Overlay.Proofs.Key.Grammar

/-!
# Reading back written keys

A written key is read back with the same operator, base key and spread exactly when it is
writable: its marker does not run on into the base key, a level is at least one, and a custom
operator is in the table. Every key that is read is writable, so writing a key that was read
loses nothing but its spelling.
-/

namespace Overlay

/-- The operators whose marker is read back in front of a base key. -/
def Operator.FitsBefore (table : OperatorTable) (base : List Char) : Operator → Prop
  | assign | prepend | append => True
  | add | multiply => base.head? ≠ some '>'
  | merge .below level => 1 ≤ level
  | merge .above level => 1 ≤ level ∧ base.head? ≠ some '>'
  | custom name => table.contains name = true

/-- A key is writable if the marker of its operator is read back in front of its base key. -/
def Key.Writable (table : OperatorTable) (k : Key) : Prop :=
  k.operator.FitsBefore table k.base.toList

namespace Marker

variable {table : OperatorTable}

/-- The marker of a fitting operator spells it. -/
theorem spells_marker {operator : Operator} {base : List Char}
    (hoperator : operator.isAssign = false) (h : operator.FitsBefore table base) :
    (simple operator base).Spells table (operator.marker ++ base) := by
  have hlevel (level : UInt32) : level.toNat = min level.toNat 4294967295 := by
    have hlt : level.toNat < UInt32.size := level.toNat_lt
    have hsize : UInt32.size = 4294967296 := rfl
    omega
  cases operator with
  | assign => simp [Operator.isAssign] at hoperator
  | add => exact .add h
  | multiply => exact .multiply h
  | prepend => exact .prepend
  | append => exact .append
  | merge side level =>
    cases side with
    | below => simpa [Operator.marker] using
        @Spells.below table _ _ base (UInt32.le_iff_toNat_le.1 h) (hlevel level)
    | above => exact .above (UInt32.le_iff_toNat_le.1 h.1) (hlevel level) h.2
  | custom name => simpa [Operator.marker, hashMark, simple] using @Spells.custom table name base false h

/-- A marker that is spelled fits before what follows it. -/
theorem fitsBefore_of_spells {body : List Char} {m : Marker} (h : m.Spells table body) :
    m.operator.FitsBefore table m.rest := by
  have hlevel {count : Nat} {level : UInt32} (hcount : 1 ≤ count)
      (hlevel : level.toNat = min count 4294967295) : 1 ≤ level := by
    rw [UInt32.le_iff_toNat_le, hlevel]
    change 1 ≤ min count 4294967295
    omega
  cases h with
  | add h => exact h
  | multiply h => exact h
  | prepend => trivial
  | append => trivial
  | below hcount hcut => exact hlevel hcount hcut
  | above hcount hcut h => exact ⟨hlevel hcount hcut, h⟩
  | custom spread h => exact h

end Marker

namespace Key

variable {table : OperatorTable}

/-- The hash of a key says whether its array is spread. -/
@[simp] theorem hash_eq_hashMark (k : Key) : k.hash = hashMark k.spread := rfl

/-- A writable key is read back from its text. -/
theorem agrees_ofChars_toChars {k : Key} (h : k.Writable table) :
    (ofChars table (k.toChars table)).agrees k = true := by
  obtain ⟨operator, base, spread, literal⟩ := k
  have hmarker (hoperator : operator.isAssign = false) :
      (ofChars table (hash ⟨operator, base, spread, literal⟩ ++
        (operator.marker ++ base.toList))).agrees ⟨operator, base, spread, literal⟩ = true := by
    rw [hash_eq_hashMark,
      ofChars_of_marker _ (Marker.ofChars?_of_spells (Marker.spells_marker hoperator h)), agrees_iff]
    simp
  cases operator with
  | assign =>
    simp only [toChars]
    split
    · assumption
    · rw [hash_eq_hashMark, ofChars_hashMark _ (by simp), agrees_iff]
      simp [ofBody]
  | custom name =>
    have hread : Marker.ofChars? table
        ('(' :: hash ⟨.custom name, base, spread, literal⟩ ++ name.toList ++ ')' :: base.toList) =
          some ⟨.custom name, spread, base.toList⟩ := Marker.custom?_name h spread base.toList
    -- The hash of a custom operator is part of its marker, so no hash stands in front.
    have hkey := ofChars_of_marker false hread
    simp only [hashMark, Bool.false_eq_true, if_false, List.nil_append] at hkey
    rw [agrees_iff, toChars]
    simp only [hkey, String.ofList_toList, Bool.false_or, and_self]
  | add | multiply | prepend | append => simpa [toChars] using hmarker rfl
  | merge side level => simpa [toChars] using hmarker rfl

/-- Every key that is read is writable. -/
theorem writable_parse (table : OperatorTable) (raw : String) : (parse table raw).Writable table := by
  have hbody (spread : Bool) (body : List Char) : (ofBody table spread body).Writable table := by
    unfold ofBody
    split
    · trivial
    · split
      · next m hm => simpa [Writable] using Marker.fitsBefore_of_spells (Marker.spells_of_ofChars? hm)
      · trivial
  unfold parse ofChars
  split <;> exact hbody _ _

/-- Whether a key is writable depends on its operator and base key alone. -/
theorem writable_of_identity_eq {k l : Key} (h : k.identity = l.identity) (hl : l.Writable table) :
    k.Writable table := by
  obtain ⟨hoperator, hbase⟩ := Identity.mk.inj h
  rwa [Writable, hoperator, hbase]

/-- A writable key is read back with its identity and spread. -/
theorem identity_parse_encode {k : Key} (h : k.Writable table) :
    (parse table (k.encode table)).identity = k.identity ∧
      (parse table (k.encode table)).spread = k.spread := by
  have hagrees := agrees_ofChars_toChars h
  obtain ⟨hoperator, hbase, hspread⟩ := agrees_iff.1 hagrees
  simp [parse, encode, identity, hoperator, hbase, hspread]

/-- Keys that differ in their spelling only are written alike. -/
theorem encode_eq_of_agrees {k l : Key} (h : k.agrees l = true) :
    k.encode table = l.encode table := by
  obtain ⟨operator, base, spread, literal⟩ := k
  obtain ⟨operator', base', spread', literal'⟩ := l
  obtain ⟨rfl, rfl, rfl⟩ := agrees_iff.1 h
  rfl

/-- A plain key is told by its base key alone. -/
theorem agrees_plain {k : Key} (h : k.isPlain = true) : k.agrees (plain k.base) = true := by
  obtain ⟨operator, base, spread, literal⟩ := k
  cases operator <;> simp_all [isPlain, Operator.isAssign, agrees, plain]

/-- A canonical plain key is what its base key is written as. -/
theorem encode_plain_base {raw : String} (hplain : (parse table raw).isPlain = true)
    (hcanonical : (parse table raw).encode table = raw) :
    (plain (parse table raw).base).encode table = raw :=
  (encode_eq_of_agrees (agrees_plain hplain)).symm.trans hcanonical

/-- A text that was written for a key is canonical: it is what its own key is written as. -/
theorem encode_parse_encode {k : Key} (h : k.Writable table) :
    (parse table (k.encode table)).encode table = k.encode table := by
  have hagrees : (parse table (k.encode table)).agrees k = true := by
    simpa [parse, encode] using agrees_ofChars_toChars h
  exact encode_eq_of_agrees hagrees

/-- A key is read back from its text exactly when it is writable, and keys that were read are. -/
theorem agrees_parse_encode_iff_writable (table : OperatorTable) :
    (∀ k : Key, (parse table (k.encode table)).agrees k = true ↔ k.Writable table) ∧
      ∀ raw : String, (parse table raw).Writable table := by
  refine ⟨fun k => ⟨fun h => ?_, fun h => ?_⟩, writable_parse table⟩
  · obtain ⟨hoperator, hbase, -⟩ := agrees_iff.1 h
    have hread := writable_parse table (k.encode table)
    rwa [Writable, hoperator, hbase] at hread
  · simpa [parse, encode] using agrees_ofChars_toChars h

end Key

end Overlay

import Mathlib.Data.List.Infix
import Overlay.Proofs.Key.RoundTrip

/-!
# Keys that mention no operator of a table

The name of a custom operator is a marker only between parentheses, behind a hash or without one. A key
in which no name of a table stands so is read as if the table were empty. Its base key is the end of it,
so no name is mentioned there, and none in what is written for it: other markers have no parentheses, and
the escape has nothing between them.
-/

namespace Overlay

/-- A text mentions a name if the name stands somewhere in it between parentheses, behind a hash or
without one. -/
def Mentions (text : List Char) (name : String) : Prop :=
  ∃ spread, '(' :: (hashMark spread ++ name.toList ++ [')']) <:+: text

instance (text : List Char) (name : String) : Decidable (Mentions text name) :=
  inferInstanceAs (Decidable (∃ spread, '(' :: (hashMark spread ++ name.toList ++ [')']) <:+: text))

namespace OperatorTable

/-- A text mentions no name of a table. -/
def Unmentioned (table : OperatorTable) (text : List Char) : Prop :=
  ∀ name, table.contains name = true → ¬ Mentions text name

variable {table : OperatorTable} {text : List Char}

/-- A table contains the names of its entries. -/
theorem contains_iff {name : String} : table.contains name = true ↔ ∃ e ∈ table.entries, e.1 = name := by
  constructor
  · intro h
    obtain ⟨operator, hfind⟩ := Option.isSome_iff_exists.1 h
    obtain ⟨before, after, hentries, -⟩ := List.lookup_eq_some_iff.1 hfind
    exact ⟨(name, operator), by simp [hentries], rfl⟩
  · rintro ⟨e, he, rfl⟩
    rw [contains, Option.isSome_iff_ne_none]
    intro hnone
    exact absurd (List.lookup_eq_none_iff.1 hnone e he) (by simp)

instance : Decidable (table.Unmentioned text) :=
  decidable_of_iff (∀ e ∈ table.entries, ¬ Mentions text e.1)
    ⟨fun h name hname => by
      obtain ⟨e, he, rfl⟩ := contains_iff.1 hname
      exact h e he,
    fun h e he => h e.1 (contains_iff.2 ⟨e, he, rfl⟩)⟩

/-- No text mentions a name of the empty table. -/
theorem unmentioned_empty (text : List Char) : empty.Unmentioned text :=
  fun _ h => absurd h Bool.false_ne_true

namespace Unmentioned

/-- A part of a text mentions no more than the text. -/
theorem of_infix {part : List Char} (h : table.Unmentioned text) (hpart : part <:+: text) :
    table.Unmentioned part := by
  rintro name hname ⟨spread, hmention⟩
  exact h name hname ⟨spread, hmention.trans hpart⟩

/-- Only an opening parenthesis in front of a text can make it mention more. -/
theorem cons {c : Char} (h : table.Unmentioned text) (hc : c ≠ '(') : table.Unmentioned (c :: text) := by
  rintro name hname ⟨spread, hmention⟩
  rcases List.infix_cons_iff.1 hmention with hfront | hrest
  · exact hc (List.cons_prefix_cons.1 hfront).1.symm
  · exact h name hname ⟨spread, hrest⟩

/-- What has no opening parenthesis mentions nothing in front of a text. -/
theorem append {front : List Char} (h : table.Unmentioned text) (hfront : '(' ∉ front) :
    table.Unmentioned (front ++ text) := by
  induction front with
  | nil => exact h
  | cons c rest ih =>
    rw [List.mem_cons, not_or] at hfront
    exact (ih hfront.2).cons (Ne.symm hfront.1)

/-- The escape mentions nothing, since every name has characters and none that closes the parentheses. -/
theorem escape (h : table.Unmentioned text) : table.Unmentioned ('(' :: ')' :: text) := by
  rintro name hname ⟨spread, hmention⟩
  rcases List.infix_cons_iff.1 hmention with hfront | hrest
  · obtain ⟨hsome, -, hclose, -⟩ := isOperatorName_iff.1 (isOperatorName_of_contains hname)
    have hname := (List.cons_prefix_cons.1 hfront).2
    cases spread with
    | true => simp at hname
    | false =>
      obtain ⟨c, rest, hchars⟩ := List.exists_cons_of_ne_nil hsome
      rw [hchars] at hname hclose
      have hc : c = ')' := (List.cons_prefix_cons.1 hname).1
      exact hclose (by simp [hc])
  · exact h.cons (by decide) name hname ⟨spread, hrest⟩

end Unmentioned

end OperatorTable

namespace Marker

variable {table : OperatorTable} {m : Marker} {body : List Char}

/-- Without custom operators the markers of the other operators are spelled, and these only. -/
theorem spells_empty_iff :
    m.Spells .empty body ↔ m.Spells table body ∧ ∀ name, m.operator ≠ .custom name := by
  constructor
  · intro h
    cases h with
    | add h => exact ⟨.add h, by simp⟩
    | multiply h => exact ⟨.multiply h, by simp⟩
    | prepend => exact ⟨.prepend, by simp⟩
    | append => exact ⟨.append, by simp⟩
    | below hcount hlevel => exact ⟨.below hcount hlevel, by simp⟩
    | above hcount hlevel h => exact ⟨.above hcount hlevel h, by simp⟩
    | custom spread h => exact absurd h Bool.false_ne_true
  · rintro ⟨h, hcustom⟩
    cases h with
    | add h => exact .add h
    | multiply h => exact .multiply h
    | prepend => exact .prepend
    | append => exact .append
    | below hcount hlevel => exact .below hcount hlevel
    | above hcount hlevel h => exact .above hcount hlevel h
    | custom spread h => exact absurd rfl (hcustom _)

/-- What follows a marker is the end of the text. -/
theorem Spells.rest_suffix (h : m.Spells table body) : m.rest <:+ body := by
  cases h with
  | add => exact List.suffix_append ['+'] _
  | multiply => exact List.suffix_append ['*'] _
  | prepend => exact List.suffix_append ['<', '+'] _
  | append => exact List.suffix_append ['+', '>'] _
  | below => exact (List.suffix_cons '*' _).trans (List.suffix_append _ _)
  | above => exact (List.suffix_append _ _).trans (List.suffix_cons '*' _)
  | custom =>
    exact (List.suffix_cons ')' _).trans ((List.suffix_append _ _).trans (List.suffix_cons '(' _))

/-- A marker that mentions no name of the table is that of no custom operator. -/
theorem Spells.ne_custom (h : m.Spells table body) (hbody : table.Unmentioned body) :
    ∀ name, m.operator ≠ .custom name := by
  cases h with
  | @custom name rest spread hname =>
    refine absurd ⟨spread, ?_⟩ (hbody name hname)
    exact ⟨[], rest, by simp⟩
  | _ => simp

end Marker

namespace Key

variable {table : OperatorTable} {text : List Char}

/-- A text that mentions no name of the table is marked as it is without the table. -/
theorem marked_empty_iff {k : Key} (h : table.Unmentioned text) :
    Marked .empty k text ↔ Marked table k text := by
  constructor
  · intro hk
    cases hk with
    | literal spread base => exact .literal spread base
    | operator spread hm => exact .operator spread (Marker.spells_empty_iff.1 hm).1
  · intro hk
    cases hk with
    | literal spread base => exact .literal spread base
    | operator spread hm =>
      have hbody := h.of_infix (List.suffix_append _ _).isInfix
      exact .operator spread (Marker.spells_empty_iff.2 ⟨hm, hm.ne_custom hbody⟩)

/-- A text that mentions no name of the table is read as it is without the table. -/
theorem ofChars_of_unmentioned (h : table.Unmentioned text) : ofChars table text = ofChars .empty text := by
  apply ofChars_of_spells
  have hspelled := spells_ofChars .empty text
  generalize ofChars .empty text = k at hspelled
  cases hspelled with
  | marked hk => exact .marked ((marked_empty_iff h).1 hk)
  | bare spread base hunmarked hhash =>
    exact .bare spread base (fun k hk => hunmarked k ((marked_empty_iff h).2 hk)) hhash

/-- The base key is the end of the text. -/
theorem base_suffix (table : OperatorTable) (text : List Char) :
    (ofChars table text).base.toList <:+ text := by
  have hspelled := spells_ofChars table text
  generalize ofChars table text = k at hspelled
  cases hspelled with
  | marked hk =>
    cases hk with
    | literal spread base =>
      rw [String.toList_ofList]
      exact (List.suffix_append ['(', ')'] base).trans (List.suffix_append _ _)
    | operator spread hm =>
      rw [String.toList_ofList]
      exact hm.rest_suffix.trans (List.suffix_append _ _)
  | bare spread base =>
    rw [String.toList_ofList]
    exact List.suffix_append _ _

end Key

/-- An identity apart from the custom operators of a table: its operator fits without them, and its base
key mentions none of them. -/
structure Identity.ApartFrom (table : OperatorTable) (i : Identity) : Prop where
  fits : i.operator.FitsBefore .empty i.base.toList
  unmentioned : table.Unmentioned i.base.toList

/-- An identity apart from a table has no custom operator. -/
theorem Identity.ApartFrom.ne_custom {table : OperatorTable} {i : Identity} (hi : i.ApartFrom table)
    (name : String) : i.operator ≠ .custom name := by
  intro hoperator
  have hfits := hi.fits
  rw [hoperator] at hfits
  exact Bool.false_ne_true hfits

namespace Key

variable {table : OperatorTable} {raw : String} {k : Key}

/-- A key that mentions no name of the table is read as it is without the table. -/
theorem parse_of_unmentioned (h : table.Unmentioned raw.toList) : parse table raw = parse .empty raw :=
  ofChars_of_unmentioned h

/-- A key that mentions no name of the table has an identity apart from the table. -/
theorem apartFrom_parse (h : table.Unmentioned raw.toList) :
    (parse .empty raw).identity.ApartFrom table where
  fits := writable_parse .empty raw
  unmentioned := h.of_infix (base_suffix .empty raw.toList).isInfix

/-- The hash mentions nothing in front of a text. -/
theorem unmentioned_hash {text : List Char} (h : table.Unmentioned text) :
    table.Unmentioned (k.hash ++ text) := by
  refine h.append ?_
  unfold hash
  split <;> decide

/-- A key with an identity apart from the table is written as it is without the table, and mentions no name
of the table. -/
theorem toChars_of_apartFrom (hk : k.identity.ApartFrom table) :
    k.toChars table = k.toChars .empty ∧ table.Unmentioned (k.toChars .empty) := by
  obtain ⟨operator, base, spread, literal⟩ := k
  have hbase : table.Unmentioned base.toList := hk.unmentioned
  have hmarked (hmarker : '(' ∉ operator.marker) :
      table.Unmentioned (hash ⟨operator, base, spread, literal⟩ ++ operator.marker ++ base.toList) := by
    rw [List.append_assoc]
    exact unmentioned_hash (hbase.append hmarker)
  cases operator with
  | assign =>
    have hbare := unmentioned_hash (k := ⟨.assign, base, spread, literal⟩) hbase
    have hescaped := unmentioned_hash (k := ⟨.assign, base, spread, literal⟩) hbase.escape
    simp only [toChars, ofChars_of_unmentioned hbare, true_and]
    split
    · exact hbare
    · exact hescaped
  | custom name => exact absurd rfl (hk.ne_custom name)
  | merge side level =>
    refine ⟨rfl, hmarked ?_⟩
    cases side <;> simp [Operator.marker]
  | _ => exact ⟨rfl, hmarked (by decide)⟩

/-- A key with an identity apart from the table is written as it is without the table. -/
theorem encode_of_apartFrom (hk : k.identity.ApartFrom table) : k.encode table = k.encode .empty :=
  congrArg String.ofList (toChars_of_apartFrom hk).1

/-- What is written for a key with an identity apart from the table mentions no name of the table. -/
theorem unmentioned_encode (hk : k.identity.ApartFrom table) :
    table.Unmentioned (k.encode .empty).toList := by
  rw [encode, String.toList_ofList]
  exact (toChars_of_apartFrom hk).2

end Key

end Overlay

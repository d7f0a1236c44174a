import Chip8.Asm.SymbolTable

/-! # What a symbol table knows

How the operations on a symbol table change what it knows about names, and the order between the
tables of one program.

* `names` lists the declared names; `declare` adds one that is new, the other operations keep them.
* `lookup_define` and `lookup_markUsed` say what is known after an operation in terms of what was
  known before.
* `Extends t t'` holds if `t'` declares the names of `t` and knows all that `t` knows about their
  values. A table extends every table that it was made from by defining names. -/

namespace Chip8.Asm.SymbolTable

variable {t t' : SymbolTable} {name i : Identifier} {value : Int64}

/-- The declared names in the order of their declarations. -/
def names (t : SymbolTable) : List Identifier := t.symbols.map Symbol.name

theorem get?_modify (t : SymbolTable) {f : Symbol → Symbol} (hf : ∀ s, (f s).name = s.name) :
    (t.modify name f).get? i = if i = name then (t.get? i).map f else t.get? i := by
  unfold modify get?
  induction t.symbols with
  | nil => simp
  | cons s ss ih =>
      have hhead : (if s.name = name then f s else s).name = s.name := by
        split
        · exact hf s
        · rfl
      rw [List.map_cons, List.find?_cons, List.find?_cons, hhead]
      by_cases hi : s.name = i
      · by_cases hn : i = name
        · simp [hi, hn]
        · simp [hi, hn]
      · simpa [hi] using ih

theorem names_modify (t : SymbolTable) {f : Symbol → Symbol} (hf : ∀ s, (f s).name = s.name) :
    (t.modify name f).names = t.names := by
  simp only [names, modify, List.map_map]
  apply List.map_congr_left
  intro s _
  simp only [Function.comp_apply]
  split
  · exact hf s
  · rfl

/-! ### Declaring -/

theorem get?_eq_none_iff : t.get? i = none ↔ i ∉ t.names := by
  simp [get?, names]

theorem find?_name_of_mem {ss : List Symbol} (hnodup : (ss.map Symbol.name).Nodup) {s : Symbol}
    (hs : s ∈ ss) : ss.find? (fun u => u.name = s.name) = some s := by
  induction ss with
  | nil => cases hs
  | cons u us ih =>
      rw [List.map_cons, List.nodup_cons] at hnodup
      rw [List.find?_cons]
      rcases List.mem_cons.mp hs with rfl | hs
      · simp
      · have hne : u.name ≠ s.name := fun e => hnodup.1 (e ▸ List.mem_map_of_mem hs)
        simp only [hne, decide_false]
        exact ih hnodup.2 hs

/-- Every symbol of a table without duplicates is the one found under its name. -/
theorem get?_of_mem (hnodup : t.names.Nodup) {s : Symbol} (hs : s ∈ t.symbols) :
    t.get? s.name = some s :=
  find?_name_of_mem hnodup hs

theorem mem_of_get? {s : Symbol} (h : t.get? name = some s) : s ∈ t.symbols ∧ s.name = name :=
  ⟨List.mem_of_find?_eq_some h, by simpa using List.find?_some h⟩

theorem get?_eq_some_iff (hnodup : t.names.Nodup) {s : Symbol} :
    t.get? name = some s ↔ s ∈ t.symbols ∧ s.name = name := by
  refine ⟨mem_of_get?, ?_⟩
  rintro ⟨hs, rfl⟩
  exact get?_of_mem hnodup hs

theorem lookup_eq_value_iff (hnodup : t.names.Nodup) :
    t.lookup name = .value value ↔ ∃ s ∈ t.symbols, s.name = name ∧ s.value = some value := by
  have hfound : t.lookup name = .value value ↔
      ∃ s, t.get? name = some s ∧ s.value = some value := by
    unfold lookup
    cases t.get? name with
    | none => simp
    | some s => cases hvalue : s.value <;> simp [hvalue]
  simp only [hfound, get?_eq_some_iff hnodup, and_assoc]

/-- A declaration puts a new symbol behind the others. -/
theorem symbols_declare {kind : SymbolKind} {span : Span} (h : t.declare name kind span = .ok t') :
    t.get? name = none ∧ t'.symbols = t.symbols ++ [⟨name, kind, span, none, false⟩] := by
  unfold declare at h
  split at h
  · cases h
  · rename_i hnone
    cases h
    exact ⟨hnone, rfl⟩

theorem names_declare {kind : SymbolKind} {span : Span} (h : t.declare name kind span = .ok t') :
    name ∉ t.names ∧ t'.names = t.names ++ [name] := by
  obtain ⟨hnone, hsymbols⟩ := symbols_declare h
  exact ⟨get?_eq_none_iff.mp hnone, by simp [names, hsymbols]⟩

/-! ### Defining -/

/-- What is known after a definition: the name had no value and has one now. -/
theorem lookup_define (h : t.define name value = .ok t') :
    t.lookup name = .undefined ∧
      ∀ i, t'.lookup i = if i = name then .value value else t.lookup i := by
  unfold define at h
  split at h
  · cases h
  · rename_i s hs
    split at h
    · cases h
    · rename_i hvalue
      cases h
      have hnone : s.value = none := by simpa using hvalue
      refine ⟨by simp [lookup, hs, hnone], fun i => ?_⟩
      unfold lookup
      rw [get?_modify t fun _ => by rfl]
      by_cases hi : i = name
      · simp [hi, hs]
      · simp [hi]

theorem names_define (h : t.define name value = .ok t') : t'.names = t.names := by
  unfold define at h
  split at h
  · cases h
  · split at h
    · cases h
    · cases h
      exact names_modify t (fun _ => rfl)

/-! ### Marking -/

theorem lookup_markUsed (t : SymbolTable) : (t.markUsed name).lookup i = t.lookup i := by
  unfold lookup markUsed
  rw [get?_modify t fun _ => by rfl]
  by_cases hi : i = name
  · rw [if_pos hi, hi]
    cases t.get? name <;> rfl
  · rw [if_neg hi]

theorem lookup_foldl_markUsed (t : SymbolTable) (marked : List Identifier) :
    (marked.foldl markUsed t).lookup i = t.lookup i := by
  induction marked generalizing t with
  | nil => rfl
  | cons m marked ih => rw [List.foldl_cons, ih, lookup_markUsed]

theorem symbols_foldl_markUsed (t : SymbolTable) (marked : List Identifier) :
    (marked.foldl markUsed t).symbols =
      t.symbols.map fun s => { s with used := s.used || marked.contains s.name } := by
  induction marked generalizing t with
  | nil => simp
  | cons m marked ih =>
      rw [List.foldl_cons, ih, markUsed, modify, List.map_map]
      apply List.map_congr_left
      intro s _
      by_cases hs : s.name = m
      · simp [hs]
      · simp [hs]

theorem names_foldl_markUsed (t : SymbolTable) (marked : List Identifier) :
    (marked.foldl markUsed t).names = t.names := by
  induction marked generalizing t with
  | nil => rfl
  | cons m marked ih =>
      rw [List.foldl_cons, ih]
      exact names_modify t fun _ => rfl

/-! ### Knowing more -/

/-- `t'` declares the same names as `t` and knows all the values that `t` knows. -/
structure Extends (t t' : SymbolTable) : Prop where
  unknown_iff : ∀ i, t'.lookup i = .unknown ↔ t.lookup i = .unknown
  value : ∀ i n, t.lookup i = .value n → t'.lookup i = .value n

theorem Extends.refl (t : SymbolTable) : t.Extends t := ⟨fun _ => Iff.rfl, fun _ _ h => h⟩

theorem Extends.trans {t₁ t₂ t₃ : SymbolTable} (h₁ : t₁.Extends t₂) (h₂ : t₂.Extends t₃) :
    t₁.Extends t₃ :=
  ⟨fun i => (h₂.unknown_iff i).trans (h₁.unknown_iff i),
    fun i n h => h₂.value i n (h₁.value i n h)⟩

/-- Two tables that know the same extend each other. -/
theorem Extends.of_lookup_eq (h : ∀ i, t'.lookup i = t.lookup i) : t.Extends t' :=
  ⟨fun i => by rw [h i], fun i n hi => by rw [h i, hi]⟩

theorem extends_define (h : t.define name value = .ok t') : t.Extends t' := by
  obtain ⟨hundef, hlookup⟩ := lookup_define h
  constructor
  · intro i
    rw [hlookup i]
    by_cases hi : i = name
    · simp [hi, hundef]
    · simp [hi]
  · intro i n hn
    rw [hlookup i]
    by_cases hi : i = name
    · rw [hi, hundef] at hn
      cases hn
    · simpa [hi] using hn

end Chip8.Asm.SymbolTable

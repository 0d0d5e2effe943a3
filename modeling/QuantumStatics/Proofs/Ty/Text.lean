/-
  Reading types off their text.

  Types are written with brackets, commas and semicolons, and names are free of these.  So a text
  tells the outermost form of a closed type and the texts of what it is built from, unless a struct
  has the name of a leaf or of a builtin form.
-/
import QuantumStatics.Proofs.Classification.Plain
import QuantumStatics.Proofs.Ty.Composition
import QuantumStatics.Proofs.Ty.Scanning

namespace QuantumStatics

/-- The characters that types are written with besides names and numbers. -/
def punctuation : List Char := ['(', ')', '[', ']', ',', ';', '@', ' ']

/-- Whether a text is a name, such as an identifier or a dotted one. -/
def isName (s : String) : Bool :=
  match s.toList with
  | [] => false
  | c :: cs => !c.isDigit && (c :: cs).all fun c => !punctuation.contains c

/-- The names that the forms of types have taken. -/
def reserved (name : String) : Bool :=
  name = "array" || name = "Option" || (Ty.builtin? name).isSome

/-- The names in a nat are names. -/
def NatTerm.Legible : NatTerm → Prop
  | .var name => isName name
  | .const _ | .undet _ => True

/-- The outermost names in a type are names, and no leaf or struct has the name of something
    else. -/
def Ty.LegibleHead : Ty → Prop
  | .prim name cls => Ty.builtin? name = some (.prim name cls)
  | .var p => isName p.name
  | .undet _ | .tuple _ | .option _ => True
  | .array _ length => length.Legible
  | .struct decl _ natArgs => isName decl.name ∧ reserved decl.name = false ∧
      ∀ n ∈ natArgs, n.Legible
  | .fn _ _ generics => ∀ name ∈ generics.typeNames ++ generics.nats, isName name

/-- The names in a type are names, and no leaf or struct has the name of something else. -/
def Ty.Legible (t : Ty) : Prop := ∀ u ∈ t.subterms, u.LegibleHead

open Scanning

/-! ## Names and numbers -/

theorem isName_iff {s : String} : isName s ↔ ∃ c cs, s.toList = c :: cs ∧ c.isDigit = false ∧
    ∀ c ∈ s.toList, c ∉ punctuation := by
  rw [isName]
  cases s.toList with
  | nil => simp
  | cons c cs => simp

theorem skipped_of_plain {w stop : List Char} (h : ∀ c ∈ w, c ∉ punctuation)
    (hs : stop ⊆ punctuation) : Skipped stop w := by
  refine skipped_of_forall fun c hc => ⟨fun h' => h c hc (hs h'), ?_, ?_⟩ <;>
  · refine Bool.eq_false_iff.mpr fun h' => h c hc ?_
    simp only [opens, closes, Bool.or_eq_true, decide_eq_true_eq] at h'
    rcases h' with rfl | rfl <;> decide

theorem skipped_of_isName {s : String} (h : isName s) {stop : List Char}
    (hs : stop ⊆ punctuation) : Skipped stop s.toList := by
  obtain ⟨-, -, -, -, plain⟩ := isName_iff.mp h
  exact skipped_of_plain plain hs

theorem name_append_inj {n n' : String} {z z' : List Char} (hn : isName n) (hn' : isName n')
    (hz : z = [] ∨ ∃ r, z = '[' :: r) (hz' : z' = [] ∨ ∃ r, z' = '[' :: r)
    (h : n.toList ++ z = n'.toList ++ z') : n = n' ∧ z = z' := by
  have halts : ∀ {z : List Char}, (z = [] ∨ ∃ r, z = '[' :: r) → Halts ['['] z := by
    rintro _ (rfl | ⟨r, rfl⟩)
    · exact halts_nil
    · exact halts_cons (.inl List.mem_cons_self)
  have sub : ['['] ⊆ punctuation := by decide
  obtain ⟨same, rest⟩ := (skipped_of_isName hn sub).append_inj (skipped_of_isName hn' sub)
    (halts hz) (halts hz') h
  exact ⟨String.toList_inj.mp same, rest⟩

theorem plain_toString (k : UInt64) : ∀ c ∈ (toString k).toList, c ∉ punctuation := by
  intro c hc
  have digit : c.isDigit := Nat.isDigit_of_mem_toDigits (by decide) (by decide)
    (Nat.toList_repr ▸ hc)
  intro mem
  have others : ∀ c ∈ punctuation, c.isDigit = false := by simp [punctuation]
  rw [others c mem] at digit
  cases digit

theorem toString_ne_nil (k : UInt64) : (toString k).toList ≠ [] := by
  show (Nat.repr k.toNat).toList ≠ []
  rw [Nat.toList_repr]
  exact Nat.toDigits_ne_nil

theorem toString_inj {k k' : UInt64} (h : toString k = toString k') : k = k' := by
  have digits : Nat.toDigits 10 k.toNat = Nat.toDigits 10 k'.toNat := by
    rw [← Nat.toList_repr, ← Nat.toList_repr]
    exact congrArg String.toList h
  refine UInt64.toNat_inj.mp ?_
  calc
    k.toNat = Nat.ofDigitChars 10 (Nat.toDigits 10 k.toNat) 0 := Nat.ofDigitChars_ten_toDigits.symm
    _ = Nat.ofDigitChars 10 (Nat.toDigits 10 k'.toNat) 0 := by rw [digits]
    _ = k'.toNat := Nat.ofDigitChars_ten_toDigits

namespace NatTerm

theorem skipped_text {n : NatTerm} (h : n.Legible) {stop : List Char}
    (hs : stop ⊆ punctuation) : Skipped stop n.text.toList := by
  cases n with
  | const v => exact skipped_of_plain (plain_toString v) hs
  | var name => exact skipped_of_isName h hs
  | undet k =>
    rw [text, String.toList_append]
    exact (skipped_of_plain (by simp [punctuation]) hs).append
      (skipped_of_plain (plain_toString k) hs)

theorem natItem_text {n : NatTerm} (h : n.isConst) : NatItem n.text := by
  cases n with
  | const v =>
    refine ⟨⟨skipped_of_plain (plain_toString v) (by decide), toString_ne_nil v⟩, ?_⟩
    intro c hc
    exact Nat.isDigit_of_mem_toDigits (by decide) (by decide)
      (Nat.toList_repr ▸ List.mem_of_mem_head? hc)
  | _ => cases h

theorem text_inj {n n' : NatTerm} (h : n.isConst) (h' : n'.isConst) (eq : n.text = n'.text) :
    n = n' := by
  cases n with
  | const v =>
    cases n' with
    | const v' => rw [toString_inj eq]
    | _ => cases h'
  | _ => cases h

end NatTerm

namespace Ty

/-- The separators that tell where the text of a type ends. -/
def stops : List Char := [',', ';', '@']

variable {t u result c : Ty} {name : String} {stop z : List Char} {p : ParamType}
  {params : List ParamType} {generics : Generics} {typeArgs elems typeArgs' : List Ty}
  {natArgs natArgs' : List NatTerm} {decl : StructDecl}

theorem Legible.component (h : t.Legible) (hc : c ∈ t.components) : c.Legible :=
  fun u hu => h u (mem_subterms_of_component hc hu)

theorem Legible.head (h : t.Legible) : t.LegibleHead := h t (mem_subterms_self t)

/-- The parameters of a function type as they are written. -/
def paramText (p : ParamType) : String :=
  p.type.text ++ (if p.ownership = .owned then " @owned" else "")

theorem paramTexts_eq (ps : List ParamType) : paramTexts ps = ps.map paramText :=
  paramTexts_eq_map ps

theorem toList_text_tuple (elems : List Ty) : (tuple elems).text.toList =
    '(' :: ([',', ' '].intercalate (elems.map fun t => t.text.toList) ++
      if elems.length = 1 then [',', ')'] else [')']) := by
  rw [text, texts_eq_map]
  split <;> simp [String.toList_intercalate, Function.comp_def]

theorem toList_text_fn (params : List ParamType) (result : Ty) (generics : Generics) :
    (fn params result generics).text.toList =
      (bracketed generics.typeNames generics.nats).toList ++
        '(' :: ([',', ' '].intercalate (params.map fun p => (paramText p).toList) ++
          ')' :: ' ' :: '-' :: '>' :: ' ' :: result.text.toList) := by
  rw [text, paramTexts_eq]
  simp [String.toList_intercalate, Function.comp_def]

theorem toList_text_array (elem : Ty) (length : NatTerm) : (array elem length).text.toList =
    "array".toList ++
      '[' :: ([',', ' '].intercalate [elem.text.toList, length.text.toList] ++ [']']) := by
  simp [text]

theorem toList_text_option (inner : Ty) : (option inner).text.toList =
    "Option".toList ++ '[' :: (inner.text.toList ++ [']']) := by
  simp [text]

theorem toList_text_struct (decl : StructDecl) (typeArgs : List Ty) (natArgs : List NatTerm) :
    (struct decl typeArgs natArgs).text.toList =
      decl.name.toList ++ (bracketed (typeArgs.map text) (natArgs.map NatTerm.text)).toList := by
  rw [text, texts_eq_map, String.toList_append]

theorem isName_of_builtin? (h : builtin? name = some t) : isName name := by
  have names : ∀ p ∈ builtins, isName p.1 := by decide
  exact names (name, t) (Instantiation.mem_of_lookup h)

theorem skipped_bracketed {types nats : List String} (hs : '[' ∉ stop)
    (ht : ∀ a ∈ types, Enclosed stop a.toList) (hn : ∀ a ∈ nats, Enclosed stop a.toList) :
    Skipped stop (bracketed types nats).toList := by
  have enclosed : ∀ as : List String, (∀ a ∈ as, Enclosed stop a.toList) →
      Enclosed stop ([',', ' '].intercalate (as.map String.toList)) := fun as h =>
    enclosed_intercalate (List.forall_mem_map.mpr h)
  rw [toList_bracketed]
  split
  · split
    · exact skipped_nil
    · exact (enclosed nats hn).skipped rfl rfl hs
  · rw [behindTypes]
    split
    · exact (enclosed types ht).skipped rfl rfl hs
    · have between : Enclosed stop [';', ' '] := enclosed_of_forall (by simp [opens, closes])
      have := (((enclosed types ht).append between).append (enclosed nats hn)).skipped
        (a := '[') (b := ']') rfl rfl hs
      simpa using this

theorem skipped_text (h : t.Legible) (hs : stop ⊆ stops) : Skipped stop t.text.toList := by
  have opening : '[' ∉ stop := fun h => absurd (hs h) (by decide)
  have opening' : '(' ∉ stop := fun h => absurd (hs h) (by decide)
  have stopping : stop ⊆ punctuation := fun c hc => (by decide : stops ⊆ punctuation) (hs hc)
  induction t with
  | prim name cls =>
    exact skipped_of_isName (isName_of_builtin? h.head) stopping
  | var p => exact skipped_of_isName h.head stopping
  | undet k =>
    rw [text, String.toList_append]
    exact (skipped_of_plain (by simp [punctuation]) stopping).append
      (skipped_of_plain (plain_toString k) stopping)
  | tuple elems ih =>
    have items := enclosed_intercalate (List.forall_mem_map.mpr fun t ht =>
      (ih t ht (h.component ht)).enclosed)
    rw [toList_text_tuple]
    split
    · have := (items.append (enclosed_of_forall (w := [',']) (by simp [opens, closes]))).skipped
        (a := '(') (b := ')') rfl rfl opening'
      simpa using this
    · exact items.skipped rfl rfl opening'
  | array elem length ih =>
    have elem := ih (h.component List.mem_cons_self)
    have length := NatTerm.skipped_text h.head stopping
    rw [toList_text_array]
    refine (skipped_of_isName (by decide) stopping).append (Enclosed.skipped rfl rfl opening ?_)
    exact enclosed_intercalate (by simp [elem.enclosed, length.enclosed])
  | struct decl typeArgs natArgs ih =>
    obtain ⟨name, -, nats⟩ := h.head
    rw [toList_text_struct]
    refine (skipped_of_isName name stopping).append (skipped_bracketed opening ?_ ?_)
    · exact List.forall_mem_map.mpr fun t ht => (ih t ht (h.component ht)).enclosed
    · exact List.forall_mem_map.mpr fun n hn => (NatTerm.skipped_text (nats n hn) stopping).enclosed
  | fn params result generics ihp ihr =>
    have names := List.forall_mem_append.mp h.head
    have types : ∀ p ∈ params, Enclosed stop (paramText p).toList := by
      intro p hp
      rw [paramText, String.toList_append]
      have type := ihp p hp (h.component (by simp only [components]; grind))
      refine type.enclosed.append (enclosed_of_forall ?_)
      split <;> simp [opens, closes]
    have result := ihr (h.component (by simp [components]))
    rw [toList_text_fn]
    refine (skipped_bracketed opening (fun a ha => ?_) fun a ha => ?_).append ?_
    · exact (skipped_of_isName (names.1 a ha) stopping).enclosed
    · exact (skipped_of_isName (names.2 a ha) stopping).enclosed
    · have brackets := (enclosed_intercalate (List.forall_mem_map.mpr types)).skipped
        (a := '(') (b := ')') rfl rfl opening'
      have arrow : Skipped stop [' ', '-', '>', ' '] := skipped_of_forall (by
        have : ∀ c ∈ [' ', '-', '>', ' '], c ∉ stops ∧ opens c = false ∧ closes c = false := by
          simp [stops, opens, closes]
        exact fun c hc => ⟨fun h => (this c hc).1 (hs h), (this c hc).2⟩)
      simpa using (brackets.append arrow).append result
  | option inner ih =>
    rw [toList_text_option]
    refine (skipped_of_isName (by decide) stopping).append (Enclosed.skipped rfl rfl opening ?_)
    exact (ih (h.component List.mem_cons_self)).enclosed

/-! ## The first character -/

theorem initial_text (h : t.Legible) : ∃ c r, t.text.toList = c :: r ∧ c.isDigit = false := by
  have named : ∀ {s : String} {r : List Char}, isName s → ∃ c r', s.toList ++ r = c :: r' ∧
      c.isDigit = false := by
    intro s r hs
    obtain ⟨c, cs, hs, digit, -⟩ := isName_iff.mp hs
    exact ⟨c, cs ++ r, by simp [hs], digit⟩
  cases t with
  | prim name cls => simpa [text] using named (r := []) (isName_of_builtin? h.head)
  | var p => simpa [text] using named (r := []) h.head
  | undet k => exact ⟨_, _, by rw [text, String.toList_append]; rfl, by decide⟩
  | tuple elems => exact ⟨'(', _, toList_text_tuple elems, by decide⟩
  | array elem length => rw [toList_text_array]; exact named (by decide)
  | struct decl typeArgs natArgs => rw [toList_text_struct]; exact named h.head.1
  | fn params result generics =>
    rw [toList_text_fn, toList_bracketed]
    split
    · split
      · exact ⟨'(', _, rfl, by decide⟩
      · exact ⟨'[', _, rfl, by decide⟩
    · exact ⟨'[', _, rfl, by decide⟩
  | option inner => rw [toList_text_option]; exact named (by decide)

theorem item_text (h : t.Legible) (hs : stop ⊆ stops) : Item stop t.text.toList := by
  obtain ⟨c, r, text, -⟩ := initial_text h
  exact ⟨skipped_text h hs, by simp [text]⟩

theorem typeItem_text (h : t.Legible) : TypeItem t.text := by
  obtain ⟨c, r, text, digit⟩ := initial_text h
  exact ⟨item_text h (by decide), by simp [text, digit]⟩

/-! ## Reading -/

/-- Closed types of one form, whose components are written alike. -/
inductive SameForm : Ty → Ty → Prop
  | prim (name : String) (cls : OwnershipClass) : SameForm (.prim name cls) (.prim name cls)
  | tuple {elems elems' : List Ty} (texts : elems.map text = elems'.map text) :
    SameForm (.tuple elems) (.tuple elems')
  | array {elem elem' : Ty} (length : NatTerm) (texts : elem.text = elem'.text) :
    SameForm (.array elem length) (.array elem' length)
  | struct {decl decl' : StructDecl} {typeArgs typeArgs' : List Ty} (natArgs : List NatTerm)
    (name : decl.name = decl'.name) (texts : typeArgs.map text = typeArgs'.map text) :
    SameForm (.struct decl typeArgs natArgs) (.struct decl' typeArgs' natArgs)
  | fn {params params' : List ParamType} {result result' : Ty} {generics generics' : Generics}
    (texts : generics = {} → generics' = {} →
      params.map (fun p => (p.type.text, p.ownership)) =
        params'.map (fun p => (p.type.text, p.ownership)) ∧ result.text = result'.text) :
    SameForm (.fn params result generics) (.fn params' result' generics')
  | option {inner inner' : Ty} (texts : inner.text = inner'.text) :
    SameForm (.option inner) (.option inner')

/-- The name that a type begins with and what is behind it. -/
def leading : Ty → Option (String × List Char)
  | .prim name _ => some (name, [])
  | .array elem length => some ("array",
      '[' :: ([',', ' '].intercalate [elem.text.toList, length.text.toList] ++ [']']))
  | .struct decl typeArgs natArgs => some (decl.name,
      (bracketed (typeArgs.map text) (natArgs.map NatTerm.text)).toList)
  | .option inner => some ("Option", '[' :: (inner.text.toList ++ [']']))
  | .var _ | .undet _ | .tuple _ | .fn _ _ _ => Option.none

theorem text_of_leading (h : t.Legible) (hl : t.leading = some (name, z)) :
    t.text.toList = name.toList ++ z ∧ isName name ∧ (z = [] ∨ ∃ r, z = '[' :: r) := by
  cases t with
  | prim name' cls =>
    cases hl
    exact ⟨(List.append_nil _).symm, isName_of_builtin? h.head, .inl rfl⟩
  | array elem length =>
    cases hl
    exact ⟨toList_text_array elem length, by decide, .inr ⟨_, rfl⟩⟩
  | struct decl typeArgs natArgs =>
    cases hl
    exact ⟨toList_text_struct decl typeArgs natArgs, h.head.1, initial_bracketed _ _⟩
  | option inner =>
    cases hl
    exact ⟨toList_text_option inner, by decide, .inr ⟨_, rfl⟩⟩
  | _ => cases hl

theorem leading_eq_of_text_eq (ht : t.Legible) (hu : u.Legible) (h : t.text = u.text)
    {n n' : String} {z' : List Char} (hl : t.leading = some (n, z))
    (hl' : u.leading = some (n', z')) : n = n' ∧ z = z' := by
  obtain ⟨text, name, behind⟩ := text_of_leading ht hl
  obtain ⟨text', name', behind'⟩ := text_of_leading hu hl'
  exact name_append_inj name name' behind behind' (by rw [← text, ← text', h])

theorem paramText_inj {p' : ParamType} (hp : p.type.Legible) (hp' : p'.type.Legible)
    (h : paramText p = paramText p') :
    (p.type.text, p.ownership) = (p'.type.text, p'.ownership) := by
  -- The mark of an owned parameter has the only such character outside of brackets.
  have mark : ∀ {p : ParamType}, p.type.Legible → rest ['@'] 0 (paramText p).toList =
      if p.ownership = .owned then "@owned".toList else [] := by
    intro p hp
    rw [paramText, String.toList_append, skipped_text hp (by decide)]
    split <;> decide
  obtain ⟨t, o⟩ := p
  obtain ⟨t', o'⟩ := p'
  have marks := mark hp
  rw [h, mark hp'] at marks
  have same : o = o' := by
    cases o <;> cases o' <;> simp at marks ⊢
  subst same
  have texts := congrArg String.toList h
  rw [paramText, paramText, String.toList_append, String.toList_append] at texts
  rw [String.toList_inj.mp (List.append_cancel_right texts)]

theorem item_paramText (h : p.type.Legible) : Item [','] (paramText p).toList := by
  have type : Item [','] p.type.text.toList := item_text h (by decide)
  rw [paramText, String.toList_append]
  refine ⟨type.skipped.append (skipped_of_forall ?_), by simp [type.nonempty]⟩
  split <;> simp [opens, closes]

theorem Legible.param (h : (fn params result generics).Legible) (hp : p ∈ params) :
    p.type.Legible :=
  h.component (List.mem_append_left _ (List.mem_map_of_mem hp))

theorem items_elems (h : (tuple elems).Legible) :
    ∀ w ∈ elems.map (fun t => t.text.toList), Item [','] w :=
  List.forall_mem_map.mpr fun t ht => item_text (h.component ht) (by decide)

theorem items_params (h : (fn params result generics).Legible) :
    ∀ w ∈ params.map (fun p => (paramText p).toList), Item [','] w :=
  List.forall_mem_map.mpr fun _ hp => item_paramText (h.param hp)

theorem endsList_closing (r : List Char) : EndsList [','] (')' :: r) :=
  ⟨halts_cons (.inr rfl), by simp⟩

theorem endsList_tuple (n : Nat) : EndsList [','] (if n = 1 then [',', ')'] else [')']) := by
  split
  · exact ⟨halts_cons (.inl (by decide)), by simp⟩
  · exact endsList_closing []

theorem map_text_of_map_toList {ts us : List Ty}
    (h : ts.map (fun t => t.text.toList) = us.map fun t => t.text.toList) :
    ts.map text = us.map text := by
  refine map_toList_inj ?_
  rwa [List.map_map, List.map_map]

theorem toList_text_generic (params : List ParamType) (result : Ty) (h : generics ≠ {}) :
    ∃ r, (fn params result generics).text.toList = '[' :: r := by
  rw [toList_text_fn, toList_bracketed]
  split
  · split
    · rename_i types nats
      refine absurd ?_ h
      obtain ⟨ts, ns⟩ := generics
      simp only [Generics.typeNames, List.map_eq_nil_iff] at types nats
      rw [types, nats]
    · exact ⟨_, rfl⟩
  · exact ⟨_, rfl⟩

theorem toList_text_monomorphic (params : List ParamType) (result : Ty) :
    (fn params result {}).text.toList =
      '(' :: ([',', ' '].intercalate (params.map fun p => (paramText p).toList) ++
        ')' :: ' ' :: '-' :: '>' :: ' ' :: result.text.toList) :=
  toList_text_fn params result {}

theorem text_tuple_ne_fn (ht : (tuple elems).Legible) (hu : (fn params result generics).Legible) :
    (tuple elems).text ≠ (fn params result generics).text := by
  intro h
  replace h := congrArg String.toList h
  rw [toList_text_tuple] at h
  by_cases plain : generics = {}
  · subst plain
    rw [toList_text_monomorphic] at h
    have ends := (intercalate_append_inj List.mem_cons_self (items_elems ht) (items_params hu)
      (endsList_tuple _) (endsList_closing _) (List.cons.inj h).2).2
    split at ends <;> simp at ends
  · obtain ⟨r, text⟩ := toList_text_generic params result plain
    rw [text] at h
    simp at h

theorem map_eq_of_map_eq {α β γ : Type} {f : α → β} {g : α → γ} {xs ys : List α}
    (h : xs.map f = ys.map f) (step : ∀ x ∈ xs, ∀ y ∈ ys, f x = f y → g x = g y) :
    xs.map g = ys.map g := by
  induction xs generalizing ys with
  | nil =>
    cases ys with
    | nil => rfl
    | cons y ys => cases h
  | cons x xs ih =>
    cases ys with
    | nil => cases h
    | cons y ys =>
      obtain ⟨first, others⟩ := List.cons.inj h
      rw [List.map_cons, List.map_cons, step x List.mem_cons_self y List.mem_cons_self first,
        ih others fun x hx y hy => step x (List.mem_cons_of_mem _ hx) y (List.mem_cons_of_mem _ hy)]

theorem isConst_of_vars {n : NatTerm} (h : n.vars = []) : n.isConst := by
  cases n with
  | const v => rfl
  | _ => cases h

theorem sameForm_array {elem elem' : Ty} {length length' : NatTerm}
    (ht : (array elem length).Legible) (hu : (array elem' length').Legible)
    (ct : (array elem length).closed) (cu : (array elem' length').closed)
    (h : [',', ' '].intercalate [elem.text.toList, length.text.toList] ++ [']'] =
      [',', ' '].intercalate [elem'.text.toList, length'.text.toList] ++ [']']) :
    SameForm (array elem length) (array elem' length') := by
  have const := isConst_of_vars (ownVars_of_closed ct)
  have const' := isConst_of_vars (ownVars_of_closed cu)
  have items : ∀ {e : Ty} {n : NatTerm}, e.Legible → n.isConst →
      ∀ w ∈ [e.text.toList, n.text.toList], Item separators w := by
    intro e n he hn
    simp [item_text he (by decide : separators ⊆ stops), (NatTerm.natItem_text hn).item]
  obtain ⟨same, -⟩ := intercalate_append_inj (by decide)
    (items (ht.component List.mem_cons_self) const) (items (hu.component List.mem_cons_self) const')
    endsList_bracket endsList_bracket h
  simp only [List.cons.injEq, String.toList_inj, and_true] at same
  obtain rfl := NatTerm.text_inj const const' same.2
  exact .array length same.1

theorem sameForm_struct {decl' : StructDecl} (name : decl.name = decl'.name)
    (same : typeArgs.map text = typeArgs'.map text ∧ natArgs = natArgs') :
    SameForm (struct decl typeArgs natArgs) (struct decl' typeArgs' natArgs') :=
  same.2 ▸ .struct natArgs name same.1

theorem form_of_leading (h : t.Legible) (hl : t.leading = some (name, z)) :
    (∃ cls, t = .prim name cls ∧ builtin? name = some t) ∨
      (∃ e n, t = .array e n ∧ name = "array") ∨
      (∃ d ts ns, t = .struct d ts ns ∧ name = d.name ∧ reserved name = false) ∨
      (∃ e, t = .option e ∧ name = "Option") := by
  have head := h.head
  cases t with
  | prim n cls => cases hl; exact .inl ⟨cls, rfl, head⟩
  | array e n => cases hl; exact .inr (.inl ⟨e, n, rfl, rfl⟩)
  | struct d ts ns => cases hl; exact .inr (.inr (.inl ⟨d, ts, ns, rfl, rfl, head.2.1⟩))
  | option e => cases hl; exact .inr (.inr (.inr ⟨e, rfl, rfl⟩))
  | _ => cases hl

theorem args_of_bracketed_eq (ht : ∀ t ∈ typeArgs, t.Legible) (ht' : ∀ t ∈ typeArgs', t.Legible)
    (hn : ∀ n ∈ natArgs, n.isConst) (hn' : ∀ n ∈ natArgs', n.isConst)
    (h : bracketed (typeArgs.map text) (natArgs.map NatTerm.text) =
      bracketed (typeArgs'.map text) (natArgs'.map NatTerm.text)) :
    typeArgs.map text = typeArgs'.map text ∧ natArgs = natArgs' := by
  obtain ⟨types, nats⟩ := bracketed_inj
    (List.forall_mem_map.mpr fun t h => typeItem_text (ht t h))
    (List.forall_mem_map.mpr fun t h => typeItem_text (ht' t h))
    (List.forall_mem_map.mpr fun n h => NatTerm.natItem_text (hn n h))
    (List.forall_mem_map.mpr fun n h => NatTerm.natItem_text (hn' n h)) h
  have same := map_eq_of_map_eq (g := id) nats fun n h n' h' =>
    NatTerm.text_inj (hn n h) (hn' n' h')
  exact ⟨types, by simpa using same⟩

theorem natArgs_isConst (h : (struct decl typeArgs natArgs).closed) : ∀ n ∈ natArgs, n.isConst := by
  intro n hn
  have own : natArgs.flatMap NatTerm.vars = [] := ownVars_of_closed h
  exact isConst_of_vars (List.flatMap_eq_nil_iff.mp own n hn)

theorem sameForm_of_leading (ht : t.Legible) (hu : u.Legible) (ct : t.closed) (cu : u.closed)
    (hl : t.leading = some (name, z)) (hl' : u.leading = some (name, z)) : SameForm t u := by
  have noArray : builtin? "array" = Option.none := rfl
  have noOption : builtin? "Option" = Option.none := rfl
  rcases form_of_leading ht hl with ⟨cls, rfl, known⟩ | ⟨e, n, rfl, rfl⟩ |
    ⟨d, ts, ns, rfl, rfl, free⟩ | ⟨e, rfl, rfl⟩ <;>
  rcases form_of_leading hu hl' with ⟨cls', rfl, known'⟩ | ⟨e', n', rfl, same⟩ |
    ⟨d', ts', ns', rfl, same, free'⟩ | ⟨e', rfl, same⟩
  case inl.inl =>
    rw [known] at known'
    cases known'
    exact .prim _ _
  case inr.inl.inr.inl =>
    rw [← hl'] at hl
    simp only [leading, Option.some.injEq, Prod.mk.injEq, List.cons.injEq, true_and] at hl
    exact sameForm_array ht hu ct cu hl
  case inr.inr.inl.inr.inr.inl =>
    rw [← hl'] at hl
    simp only [leading, Option.some.injEq, Prod.mk.injEq, String.toList_inj] at hl
    exact sameForm_struct same (args_of_bracketed_eq (fun t h => ht.component h)
      (fun t h => hu.component h) (natArgs_isConst ct) (natArgs_isConst cu) hl.2)
  case inr.inr.inr.inr.inr.inr =>
    rw [← hl'] at hl
    simp only [leading, Option.some.injEq, Prod.mk.injEq, List.cons.injEq, true_and,
      List.append_cancel_right_eq, String.toList_inj] at hl
    exact .option hl
  -- No name begins two forms.
  all_goals simp_all [reserved]

theorem initial_of_leading_eq_none (ct : t.closed) (hl : t.leading = Option.none) :
    ∃ c r, t.text.toList = c :: r ∧ c ∈ punctuation := by
  have own := ownVars_of_closed ct
  cases t with
  | tuple elems => exact ⟨'(', _, toList_text_tuple elems, by decide⟩
  | fn params result generics =>
    by_cases plain : generics = {}
    · subst plain
      exact ⟨'(', _, toList_text_monomorphic params result, by decide⟩
    · obtain ⟨r, text⟩ := toList_text_generic params result plain
      exact ⟨'[', r, text, by decide⟩
  | var | undet => cases own
  | _ => cases hl

theorem leading_isSome_of_text_eq (ht : t.Legible) (cu : u.closed) (h : t.text = u.text)
    (hl : t.leading.isSome) : u.leading.isSome := by
  obtain ⟨⟨name, z⟩, hl⟩ := Option.isSome_iff_exists.mp hl
  obtain ⟨text, hn, -⟩ := text_of_leading ht hl
  obtain ⟨c, cs, name, -, plain⟩ := isName_iff.mp hn
  cases hl' : u.leading with
  | some _ => rfl
  | none =>
    obtain ⟨c', r, text', bracket⟩ := initial_of_leading_eq_none cu hl'
    rw [← h, text, name, List.cons_append, List.cons.injEq] at text'
    exact absurd (text'.1 ▸ bracket) (plain c (by simp [name]))

theorem params_of_text_eq {params' : List ParamType} {result' : Ty}
    (ht : (fn params result {}).Legible) (hu : (fn params' result' {}).Legible)
    (h : (fn params result {}).text = (fn params' result' {}).text) :
    params.map (fun p => (p.type.text, p.ownership)) =
      params'.map (fun p => (p.type.text, p.ownership)) ∧ result.text = result'.text := by
  replace h := congrArg String.toList h
  rw [toList_text_monomorphic, toList_text_monomorphic] at h
  obtain ⟨same, ends⟩ := intercalate_append_inj List.mem_cons_self (items_params ht)
    (items_params hu) (endsList_closing _) (endsList_closing _) (List.cons.inj h).2
  refine ⟨map_eq_of_map_eq same fun p hp p' hp' h => ?_, String.toList_inj.mp (by simpa using ends)⟩
  exact paramText_inj (ht.param hp) (hu.param hp') (String.toList_inj.mp h)

/-- **Closed types with one text have one form**, and their components have one text each. -/
theorem sameForm_of_text_eq (ht : t.Legible) (hu : u.Legible) (ct : t.closed) (cu : u.closed)
    (h : t.text = u.text) : SameForm t u := by
  cases hl : t.leading with
  | some l =>
    obtain ⟨⟨n', z'⟩, hl'⟩ := Option.isSome_iff_exists.mp
      (leading_isSome_of_text_eq ht cu h (by simp [hl]))
    obtain ⟨n, z⟩ := l
    obtain ⟨rfl, rfl⟩ := leading_eq_of_text_eq ht hu h hl hl'
    exact sameForm_of_leading ht hu ct cu hl hl'
  | none =>
    have hl' : u.leading = Option.none := by
      rw [← Option.not_isSome_iff_eq_none]
      intro some
      have := leading_isSome_of_text_eq hu ct h.symm some
      simp [hl] at this
    have own := ownVars_of_closed ct
    have own' := ownVars_of_closed cu
    cases t with
    | tuple elems =>
      cases u with
      | tuple elems' =>
        replace h := congrArg String.toList h
        rw [toList_text_tuple, toList_text_tuple] at h
        exact .tuple (map_text_of_map_toList (intercalate_append_inj List.mem_cons_self
          (items_elems ht) (items_elems hu) (endsList_tuple _) (endsList_tuple _)
          (List.cons.inj h).2).1)
      | fn params result generics => exact absurd h (text_tuple_ne_fn ht hu)
      | var | undet => cases own'
      | _ => cases hl'
    | fn params result generics =>
      cases u with
      | tuple elems => exact absurd h.symm (text_tuple_ne_fn hu ht)
      | fn params' result' generics' =>
        refine .fn ?_
        rintro rfl rfl
        exact params_of_text_eq ht hu h
      | var | undet => cases own'
      | _ => cases hl'
    | var | undet => cases own
    | _ => cases hl

/-- A type that can be read off its text if it is closed. -/
structure Readable (t : Ty) : Prop where
  legible : t.Legible
  simple : t.Simple

theorem Readable.component (h : t.Readable) (hc : c ∈ t.components) : c.Readable :=
  ⟨h.legible.component hc, h.simple.component hc⟩

/-- **Closed types are equal if they have one text**, unless they have generic function types. -/
theorem skeleton_eq_of_text_eq (ht : t.Readable) (hu : u.Readable) (ct : t.closed) (cu : u.closed)
    (h : t.text = u.text) : t.skeleton = u.skeleton := by
  induction t using componentInduction generalizing u with
  | step t ih =>
    -- The components have one text each, so the hypothesis applies to them.
    have step : ∀ c ∈ t.components, ∀ c' ∈ u.components, c.text = c'.text →
        c.skeleton = c'.skeleton := fun c hc c' hc' =>
      ih c hc (ht.component hc) (hu.component hc') (ht.simple.closed ct hc)
        (hu.simple.closed cu hc')
    have binds := ht.simple t (mem_subterms_self t)
    have binds' := hu.simple u (mem_subterms_self u)
    cases sameForm_of_text_eq ht.legible hu.legible ct cu h with
    | prim name cls => rfl
    | tuple texts =>
      rw [skeleton, skeleton, skeletonAll_eq_map, skeletonAll_eq_map, map_eq_of_map_eq texts step]
    | array length texts =>
      rw [skeleton, skeleton, step _ List.mem_cons_self _ List.mem_cons_self texts]
    | struct natArgs name texts =>
      rw [skeleton, skeleton, skeletonAll_eq_map, skeletonAll_eq_map, map_eq_of_map_eq texts step,
        name]
    | fn texts =>
      obtain ⟨params, result⟩ := texts binds binds'
      simp only [binder] at binds binds'
      subst binds binds'
      rw [skeleton, skeleton, skeletonParams_eq_map, skeletonParams_eq_map,
        step _ (by simp [components]) _ (by simp [components]) result,
        map_eq_of_map_eq params fun p hp p' hp' h => ?_]
      simp only [Prod.mk.injEq] at h
      rw [skeletonParam, skeletonParam, h.2, step _ (by simp only [components]; grind) _
        (by simp only [components]; grind) h.1]
    | option texts =>
      rw [skeleton, skeleton, step _ List.mem_cons_self _ List.mem_cons_self texts]

/-! ## Instances -/

theorem legibleHead_inst {I : Instantiation} (h : t.LegibleHead)
    (nats : ∀ {n m}, I.nats.get? n = some m → m.Legible)
    (free : ∀ p, t = .var p → I.types.get? p.name = Option.none) : (t.inst I).LegibleHead := by
  have nat : ∀ {n : NatTerm}, n.Legible → (n.inst I).Legible := by
    intro n hn
    cases n with
    | const | undet => exact trivial
    | var name =>
      rw [NatTerm.inst_var]
      cases hm : I.nats.get? name with
      | none => exact hn
      | some m => exact nats hm
  cases t with
  | var p =>
    rw [inst_var, free p rfl]
    exact h
  | array elem length =>
    rw [inst_array]
    exact nat h
  | struct decl typeArgs natArgs =>
    rw [inst_struct]
    exact ⟨h.1, h.2.1, List.forall_mem_map.mpr fun n hn => nat (h.2.2 n hn)⟩
  | fn params result generics =>
    rw [inst_fn]
    exact h
  | prim name cls =>
    rw [inst_prim]
    exact h
  | undet | tuple | option => simp [LegibleHead]

/-- **Instances of types that can be read can be read**, if the arguments can. -/
theorem Readable.inst {I : Instantiation} {t : Ty} (h : t.Readable)
    (types : ∀ {n u}, I.types.get? n = some u → u.Readable)
    (nats : ∀ {n m}, I.nats.get? n = some m → m.Legible) : (t.inst I).Readable where
  legible := forall_subterms_inst (fun hu => (types hu).legible) fun u hu _ within free =>
    legibleHead_inst (h.legible u hu) (fun hm => nats (within.nats hm)) free
  simple := forall_subterms_inst (fun hu => (types hu).simple) fun u hu _ _ free => by
    rw [binder_inst free, h.simple u hu]

end Ty

theorem Key.text_inj {k k' : Key} (hn : isName k.name) (hn' : isName k'.name)
    (ht : ∀ t ∈ k.typeArgs, t.Readable ∧ t.closed)
    (ht' : ∀ t ∈ k'.typeArgs, t.Readable ∧ t.closed) (hc : ∀ n ∈ k.natArgs, n.isConst)
    (hc' : ∀ n ∈ k'.natArgs, n.isConst) (h : k.text = k'.text) :
    k.name = k'.name ∧ k.typeArgs.map Ty.skeleton = k'.typeArgs.map Ty.skeleton ∧
      k.natArgs = k'.natArgs := by
  replace h := congrArg String.toList h
  rw [Key.text, Key.text, Ty.texts_eq_map, Ty.texts_eq_map, String.toList_append,
    String.toList_append] at h
  obtain ⟨name, args⟩ := name_append_inj hn hn' (initial_bracketed _ _)
    (initial_bracketed _ _) h
  obtain ⟨types, nats⟩ := Ty.args_of_bracketed_eq (fun t h => (ht t h).1.legible)
    (fun t h => (ht' t h).1.legible) hc hc' (String.toList_inj.mp args)
  refine ⟨name, Ty.map_eq_of_map_eq types fun t h t' h' => ?_, nats⟩
  obtain ⟨readable, closed⟩ := ht t h
  obtain ⟨readable', closed'⟩ := ht' t' h'
  exact Ty.skeleton_eq_of_text_eq readable readable' closed closed'

end QuantumStatics

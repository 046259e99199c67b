import Mathlib
import Machismo.Resolver.Names

/-! # Which constructors get an adapter

`is_ctor_or_dtor` and `ctor_has_stack_params` look for the first `C` or `D`, digit and `E` in
the whole mangled name, and count the one-letter types behind it.  A constructor's own mark
is found unless its class or namespaces have one in their names, or template arguments or a
tag follow it; a mark in the name of anything else is taken for a constructor's.  Parameters
are counted up to the first that is no built-in type of one letter.
-/
namespace Machismo.Resolver

/-- Where a parameter is passed as long as there are registers. -/
inductive RegClass where
  | general
  | simd
deriving DecidableEq, Repr

def integerCodes : List Char := ['i','j','l','m','x','y','c','s','b','a','h','t','w']
def floatCodes : List Char := ['f','d']
def simpleCode (c : Char) : Bool := floatCodes.contains c || integerCodes.contains c

/-- A parameter type: a built-in one of one letter, or another, whose class its declaration gives. -/
inductive Ty where
  | integer (code : Char) (h : code ∈ integerCodes)
  | floating (code : Char) (h : code ∈ floatCodes)
  | compound (first : Char) (rest : Name) (regClass : RegClass) (h : simpleCode first = false ∧ first ≠ 'v')

namespace Ty

def text : Ty → Name
  | integer code _ => [code]
  | floating code _ => [code]
  | compound first rest _ _ => first :: rest

def regClass : Ty → RegClass
  | integer _ _ => .general
  | floating _ _ => .simd
  | compound _ _ c _ => c

def simple : Ty → Bool
  | integer _ _ => true
  | floating _ _ => true
  | compound _ _ _ _ => false

end Ty

/-- What is mangled: a constructor or destructor, with the text of its class and namespaces, and of the
template arguments and tags behind it; or anything else. -/
inductive Entity where
  | ctorDtor (scope : Name) (letter digit : Char) (args : Name) (params : List Ty)
      (hletter : letter ∈ ['C','D']) (hdigit : digit ∈ ['0','1','2']) (hargs : args.head? ≠ some 'E')
  | other (text : Name)

def paramText (params : List Ty) : Name := if params = [] then ['v'] else params.flatMap Ty.text

def Entity.encoding : Entity → Name
  | ctorDtor scope letter digit args params _ _ _ =>
    scope++(letter :: digit :: args) ++ 'E' :: paramText params
  | other text => text

def Entity.symbol (e : Entity) : Name := '_' :: '_' :: 'Z' :: e.encoding

/-- All parameters are passed in registers; one general register is taken by `this`. -/
def Fits (params : List Ty) : Prop :=
  params.countP (fun ty => ty.regClass = .general) ≤ 7 ∧ params.countP (fun ty => ty.regClass = .simd) ≤ 8

def Entity.NeedsAdapter : Entity → Prop
  | ctorDtor _ _ _ _ params _ _ _ => Fits params
  | other _ => False

section Marks

/-- `C` or `D` and a digit, as they stand before an `E`. -/
def Mark (c k : Char) : Prop := c ∈ ['C','D'] ∧ k ∈ ['0','1','2']

def Marked (s : Name) : Prop := ∃ a c k b, Mark c k ∧ s = a++c :: k :: 'E' :: b

/-- What follows the first mark. -/
def FirstMark (s after : Name) : Prop := ∃ a c k, Mark c k ∧ s = a++c :: k :: 'E' :: after ∧ ¬Marked a

/-- A mark at the very front. -/
def FrontMark (c : Char) (p after : Name) : Prop := ∃ k, Mark c k ∧ p = k :: 'E' :: after

theorem marked_cons {c : Char} {p : Name} : Marked (c :: p) ↔ (∃ after, FrontMark c p after) ∨ Marked p := by
  constructor
  · rintro ⟨a,d,k,b,hmark,heq⟩
    cases a with
    | nil =>
      obtain ⟨rfl,rfl⟩ := List.cons.inj heq
      exact Or.inl ⟨b,k,hmark,rfl⟩
    | cons x a =>
      obtain ⟨rfl,rfl⟩ := List.cons.inj heq
      exact Or.inr ⟨a,d,k,b,hmark,rfl⟩
  · rintro (⟨after,k,hmark,rfl⟩ | ⟨a,d,k,b,hmark,rfl⟩)
    · exact ⟨[],c,k,after,hmark,rfl⟩
    · exact ⟨c :: a,d,k,b,hmark,rfl⟩

theorem Mark.ne {c k : Char} (h : Mark c k) : c ≠ 'E' ∧ k ≠ 'E' := by
  obtain ⟨hc,hk⟩ := h
  constructor
  · rintro rfl
    exact absurd hc (by decide)
  · rintro rfl
    exact absurd hk (by decide)

theorem frontMark_append {x c k : Char} (h : Mark c k) (a rest : Name) :
    (∃ after, FrontMark x (a++c :: k :: rest) after) ↔ ∃ after, FrontMark x a after := by
  constructor
  · rintro ⟨after,l,hmark,heq⟩
    match a,heq with
    | [],heq => exact absurd (List.cons.inj (List.cons.inj heq).2).1 h.ne.2
    | [y],heq => exact absurd (List.cons.inj (List.cons.inj heq).2).1 h.ne.1
    | y :: z :: a,heq =>
      obtain ⟨rfl,hrest⟩ := List.cons.inj heq
      obtain ⟨rfl,-⟩ := List.cons.inj hrest
      exact ⟨a,y,hmark,rfl⟩
  · rintro ⟨after,l,hmark,rfl⟩
    exact ⟨after++c :: k :: rest,l,hmark,rfl⟩

theorem firstMark_cons {x : Char} {p after : Name} :
    FirstMark (x :: p) after ↔ FrontMark x p after ∨ (¬∃ after, FrontMark x p after) ∧ FirstMark p after := by
  constructor
  · rintro ⟨a,c,k,hmark,heq,hnone⟩
    cases a with
    | nil =>
      obtain ⟨rfl,rfl⟩ := List.cons.inj heq
      exact Or.inl ⟨k,hmark,rfl⟩
    | cons y a =>
      obtain ⟨rfl,rfl⟩ := List.cons.inj heq
      rw [marked_cons,not_or] at hnone
      exact Or.inr ⟨fun h => hnone.1 ((frontMark_append hmark a _).mp h),a,c,k,hmark,rfl,hnone.2⟩
  · rintro (⟨k,hmark,rfl⟩ | ⟨hfront,a,c,k,hmark,rfl,hnone⟩)
    · exact ⟨[],x,k,hmark,rfl,by rintro ⟨a,c,k,b,-,heq⟩; simp at heq⟩
    · refine ⟨x :: a,c,k,hmark,rfl,?_⟩
      rw [marked_cons,not_or]
      exact ⟨fun h => hfront ((frontMark_append hmark a _).mpr h),hnone⟩

theorem mark_iff {c k : Char} : Mark c k ↔ (c = 'C' ∨ c = 'D') ∧ (k = '0' ∨ k = '1' ∨ k = '2') := by
  simp [Mark]

theorem ctorParams_front {x k : Char} {after : Name} (h : Mark x k) :
    ctorParams (x :: k :: 'E' :: after) = some after := by
  rw [ctorParams,if_pos (mark_iff.mp h)]

theorem ctorParams_cons {x : Char} {p : Name} (h : ¬∃ after, FrontMark x p after) :
    ctorParams (x :: p) = ctorParams p := by
  rw [ctorParams.eq_def]
  dsimp only
  split
  · rename_i k after
    rw [if_neg fun hmark => h ⟨after,k,mark_iff.mpr hmark,rfl⟩]
  · rfl

theorem ctorParams_iff (s after : Name) : ctorParams s = some after ↔ FirstMark s after := by
  induction s with
  | nil =>
    refine iff_of_false (by simp [ctorParams]) ?_
    rintro ⟨a,c,k,-,heq,-⟩
    simp at heq
  | cons x p ih =>
    rw [firstMark_cons,← ih]
    by_cases hfront : ∃ after, FrontMark x p after
    · obtain ⟨after',k,hmark,rfl⟩ := hfront
      rw [ctorParams_front hmark]
      constructor
      · rintro ⟨⟩
        exact Or.inl ⟨k,hmark,rfl⟩
      · rintro (⟨l,-,heq⟩ | ⟨hnone,-⟩)
        · obtain ⟨-,hrest⟩ := List.cons.inj heq
          rw [(List.cons.inj hrest).2]
        · exact absurd ⟨after',k,hmark,rfl⟩ hnone
    · rw [ctorParams_cons hfront]
      refine ⟨fun h => Or.inr ⟨hfront,h⟩,?_⟩
      rintro (h | ⟨-,h⟩)
      · exact absurd ⟨after,h⟩ hfront
      · exact h

end Marks

section Counts

/-- The types of one letter a text starts with. -/
def simpleRun (s : Name) : Name := s.takeWhile simpleCode

/-- More of them than there are registers. -/
def RunOverflows (s : Name) : Prop :=
  8 < (simpleRun s).countP floatCodes.contains ∨ 7 < (simpleRun s).countP integerCodes.contains

theorem not_integer_of_float {c : Char} (h : floatCodes.contains c = true) : integerCodes.contains c = false := by
  have hmem := List.contains_iff_mem.mp h
  simp only [floatCodes,List.mem_cons,List.not_mem_nil,or_false] at hmem
  rcases hmem with rfl | rfl <;> rfl

theorem simpleRun_cons {c : Char} (h : simpleCode c = true) (s : Name) : simpleRun (c :: s) = c :: simpleRun s :=
  List.takeWhile_cons_of_pos h

theorem stackParams_cons (f i : ℕ) (c : Char) (s : Name) : stackParams f i (c :: s) =
    if floatCodes.contains c then stackParams (f+1) i s
    else if integerCodes.contains c then stackParams f (i+1) s
    else decide (8 < f ∨ 7 < i) := by
  rw [stackParams]
  simp only [floatCodes,integerCodes,List.contains_iff_mem,gt_iff_lt]

theorem stackParams_iff (f i : ℕ) (s : Name) : stackParams f i s = true ↔
    8 < f+(simpleRun s).countP floatCodes.contains ∨ 7 < i+(simpleRun s).countP integerCodes.contains := by
  induction s generalizing f i with
  | nil => simp [stackParams,simpleRun]
  | cons c s ih =>
    rw [stackParams_cons]
    by_cases hfloat : floatCodes.contains c = true
    · have hint := not_integer_of_float hfloat
      rw [if_pos hfloat,ih,simpleRun_cons (by rw [simpleCode,hfloat]; rfl),List.countP_cons_of_pos hfloat,
        List.countP_cons_of_neg (by rw [hint]; decide)]
      omega
    · rw [if_neg hfloat]
      by_cases hint : integerCodes.contains c = true
      · rw [if_pos hint,ih,simpleRun_cons (by rw [simpleCode,hint,Bool.or_true]),List.countP_cons_of_neg hfloat,
          List.countP_cons_of_pos hint]
        omega
      · have hrun : simpleRun (c :: s) = [] := List.takeWhile_cons_of_neg fun h => by
          rw [simpleCode,Bool.or_eq_true] at h
          exact h.elim hfloat hint
        rw [if_neg hint,hrun]
        simp

theorem ctorParams_symbol (text : Name) :
    (itanium ('_' :: '_' :: 'Z' :: text)).bind ctorParams = ctorParams text := by
  have hnone : ∀ {x : Char} (p : Name), x ≠ 'C' → x ≠ 'D' → ¬∃ after, FrontMark x p after := by
    rintro x p hC hD ⟨after,k,hmark,-⟩
    exact (mark_iff.mp hmark).1.elim hC hD
  show ctorParams ('_' :: 'Z' :: text) = ctorParams text
  rw [ctorParams_cons (hnone _ (by decide) (by decide)),ctorParams_cons (hnone _ (by decide) (by decide))]

theorem ctorHasStackParams_of_params {name after : Name} (h : (itanium name).bind ctorParams = some after) :
    ctorHasStackParams name = stackParams 0 0 after := by
  unfold ctorHasStackParams
  rw [h]
  split
  · rename_i h
    cases h
  · rename_i h
    cases h
    rfl
  · rename_i h
    cases h
    rfl
  · rename_i h
    cases h
    rfl

theorem adapted_symbol (text : Name) : adapted ('_' :: '_' :: 'Z' :: text) = true ↔
    ∃ after, FirstMark text after ∧ ¬RunOverflows after := by
  simp only [← ctorParams_iff]
  unfold adapted isCtorOrDtor
  have hsymbol := ctorParams_symbol text
  cases hparams : ctorParams text with
  | none => simp [hsymbol,hparams]
  | some after =>
    rw [hparams] at hsymbol
    have hstack := stackParams_iff 0 0 after
    rw [Nat.zero_add,Nat.zero_add] at hstack
    rw [ctorHasStackParams_of_params hsymbol,hsymbol]
    simp only [Option.isSome_some,Bool.true_and,Bool.not_eq_true',Option.some.injEq,exists_eq_left']
    rw [← Bool.not_eq_true,hstack]
    rfl

end Counts

section Told

theorem countP_cons_congr {α β : Type} {p : α → Bool} {q : β → Bool} {a : α} {b : β} (h : p a = q b) {as : List α}
    {bs : List β} (hs : as.countP p = bs.countP q) : (a :: as).countP p = (b :: bs).countP q := by
  rw [List.countP_cons,List.countP_cons,h,hs]

/-- The letters of the parameters up to the first that is no built-in type of one letter. -/
theorem simpleRun_flatMap (params : List Ty) :
    (simpleRun (params.flatMap Ty.text)).countP floatCodes.contains =
      (params.takeWhile Ty.simple).countP (fun ty => ty.regClass = .simd) ∧
    (simpleRun (params.flatMap Ty.text)).countP integerCodes.contains =
      (params.takeWhile Ty.simple).countP (fun ty => ty.regClass = .general) := by
  induction params with
  | nil => exact ⟨rfl,rfl⟩
  | cons ty params ih =>
    rw [List.flatMap_cons]
    cases ty with
    | integer code h =>
      have hint := List.contains_iff_mem.mpr h
      have hfloat : floatCodes.contains code = false := by
        by_contra hfloat
        rw [Bool.not_eq_false] at hfloat
        exact absurd (hint.symm.trans (not_integer_of_float hfloat)) (by decide)
      rw [Ty.text,List.cons_append,List.nil_append,simpleRun_cons (by rw [simpleCode,hint,Bool.or_true]),
        List.takeWhile_cons_of_pos rfl]
      exact ⟨countP_cons_congr hfloat ih.1,countP_cons_congr hint ih.2⟩
    | floating code h =>
      have hfloat := List.contains_iff_mem.mpr h
      rw [Ty.text,List.cons_append,List.nil_append,simpleRun_cons (by rw [simpleCode,hfloat]; rfl),
        List.takeWhile_cons_of_pos rfl]
      exact ⟨countP_cons_congr hfloat ih.1,countP_cons_congr (not_integer_of_float hfloat) ih.2⟩
    | compound first rest regClass h =>
      have hrun : simpleRun (first :: (rest++params.flatMap Ty.text)) = [] :=
        List.takeWhile_cons_of_neg (by rw [h.1]; decide)
      rw [Ty.text,List.cons_append,hrun,List.takeWhile_cons_of_neg (by rw [Ty.simple]; decide)]
      exact ⟨rfl,rfl⟩

theorem runOverflows_paramText (params : List Ty) :
    ¬RunOverflows (paramText params) ↔ Fits (params.takeWhile Ty.simple) := by
  unfold RunOverflows Fits paramText
  by_cases hempty : params = []
  · subst hempty
    exact iff_of_true (by decide) (by decide)
  · obtain ⟨hfloat,hint⟩ := simpleRun_flatMap params
    rw [if_neg hempty,hfloat,hint]
    omega

theorem Fits.leading {params : List Ty} (h : Fits params) : Fits (params.takeWhile Ty.simple) :=
  ⟨((List.takeWhile_sublist _).countP_le).trans h.1,((List.takeWhile_sublist _).countP_le).trans h.2⟩

theorem FirstMark.unique {s after after' : Name} (h : FirstMark s after) (h' : FirstMark s after') : after = after' :=
  Option.some.inj (((ctorParams_iff s after).mpr h).symm.trans ((ctorParams_iff s after').mpr h'))

/-- When the name tells whether an adapter is needed.  A constructor or destructor is found by its own mark if
no template arguments or tag follow and its class and namespaces have none in their text; then the
parameters before the first compound one are too many if all together are.  Otherwise, if it needs an
adapter, there is another mark, and the letters behind the first mark are too many exactly if the
parameters are.  In the name of anything else there is no mark, or the letters behind it are too many. -/
def Entity.Told : Entity → Prop
  | ctorDtor scope letter digit args params hletter hdigit hargs =>
    (args = [] ∧ ¬Marked scope → Fits params ∨ ¬Fits (params.takeWhile Ty.simple)) ∧
      (¬(args = [] ∧ ¬Marked scope) →
        let text := (ctorDtor scope letter digit args params hletter hdigit hargs).encoding
        (Fits params → ∃ after, FirstMark text after) ∧
          ∀ after, FirstMark text after → (RunOverflows after ↔ ¬Fits params))
  | other text => ∀ after, FirstMark text after → RunOverflows after

/-- The adapter is applied where it is needed exactly if the name tells. -/
theorem adapter_iff (e : Entity) : (adapted e.symbol = true ↔ e.NeedsAdapter) ↔ e.Told := by
  rw [Entity.symbol,adapted_symbol]
  cases e with
  | other text =>
    simp only [Entity.NeedsAdapter,Entity.Told,Entity.encoding,iff_false,not_exists,not_and,not_not]
  | ctorDtor scope letter digit args params hletter hdigit hargs =>
    have hmark : Mark letter digit := ⟨hletter,hdigit⟩
    by_cases hown : args = [] ∧ ¬Marked scope
    · have hfirst : FirstMark (Entity.ctorDtor scope letter digit args params hletter hdigit hargs).encoding
          (paramText params) := by
        obtain ⟨rfl,hscope⟩ := hown
        exact ⟨scope,letter,digit,hmark,by simp [Entity.encoding],hscope⟩
      have hadapted : (∃ after, FirstMark (Entity.ctorDtor scope letter digit args params hletter hdigit hargs).encoding
          after ∧ ¬RunOverflows after) ↔ Fits (params.takeWhile Ty.simple) := by
        rw [← runOverflows_paramText]
        refine ⟨?_,fun h => ⟨_,hfirst,h⟩⟩
        rintro ⟨after,h,hrun⟩
        rwa [hfirst.unique h]
      rw [hadapted]
      constructor
      · intro h
        refine ⟨fun _ => ?_,fun hnot => absurd hown hnot⟩
        by_cases hfits : Fits params
        · exact Or.inl hfits
        · exact Or.inr fun hleading => hfits (h.mp hleading)
      · rintro ⟨htold,-⟩
        exact ⟨fun hleading => (htold hown).resolve_right fun h => h hleading,Fits.leading⟩
    · constructor
      · intro h
        refine ⟨fun hyes => absurd hyes hown,fun _ => ⟨fun hfits => ?_,fun after hafter => ?_⟩⟩
        · obtain ⟨after,hafter,-⟩ := h.mpr hfits
          exact ⟨after,hafter⟩
        · refine ⟨fun hrun hfits => ?_,fun hnot => ?_⟩
          · obtain ⟨after',hafter',hrun'⟩ := h.mpr hfits
            exact hrun' (hafter.unique hafter' ▸ hrun)
          · by_contra hrun
            exact hnot (h.mp ⟨after,hafter,hrun⟩)
      · rintro ⟨-,htold⟩
        obtain ⟨hfound,hruns⟩ := htold hown
        constructor
        · rintro ⟨after,hafter,hrun⟩
          by_contra hfits
          exact hrun ((hruns after hafter).mpr hfits)
        · intro hfits
          obtain ⟨after,hafter⟩ := hfound hfits
          exact ⟨after,hafter,fun hrun => (hruns after hafter).mp hrun hfits⟩

/-- `f(A::C1)`: the class of the parameter is called `C1`. -/
def takesC1 : Entity := .other "1fN1A2C1E".toList

/-- A function that is no constructor gets the adapter. -/
theorem takesC1_adapted : ¬(adapted takesC1.symbol = true ↔ takesC1.NeedsAdapter) :=
  fun h => h.mp (by decide)

end Told

end Machismo.Resolver

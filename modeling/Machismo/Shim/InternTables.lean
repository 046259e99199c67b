import Machismo.A64.Memory
import Machismo.Data.LockedList

/-! # Selectors

A selector is the text in a node of a list that only grows. `sel_registerName` searches the list under
a spin lock and adds the name it does not find, so that selectors can be compared as pointers. Where no
memory is left the process ends.
-/
namespace Machismo.Shim
open A64 Data Data.Threads Data.LockedList

/-- `selectors` with the lock and the threads in `sel_registerName`, each with a name that is not NULL. -/
abbrev Selectors (T : Type) := LockedList.State T Addr (List Char) Unit

namespace Selectors
variable {T : Type} [DecidableEq T]

abbrev step (t : T) : Selectors T → Selectors T → Prop := LockedList.Step False t

def name (node : Addr) : Addr := node + 8

def text (s : Selectors T) (selector : Addr) : Option (List Char) := (s.node (selector - 8)).map Node.key

theorem name_inj {p q : Addr} : name p = name q ↔ p = q := by
  constructor
  · intro h
    have := congrArg (· - 8#64) h
    simpa [name] using this
  · exact congrArg name

/-- Two registrations give the same selector where they are of the same name, and nowhere else. A
selector keeps its text in every later state, and no registration goes without one. -/
theorem selRegisterName_interns {s s' : Selectors T} (h : Reaches step State.start s) (h' : Reaches step s s') :
    (∀ k, ⟨k,some (),none⟩ ∉ s'.log) ∧
    ∀ k l v w p q, ⟨k,v,some p⟩ ∈ s.log → ⟨l,w,some q⟩ ∈ s'.log →
      (name p = name q ↔ k = l) ∧ s'.text (name p) = some k := by
  obtain ⟨c,hinv⟩ := LockedList.Reaches.inv (h.trans h')
  refine ⟨fun k => hinv.replays.answered not_false,fun k l v w p q hp hq => ⟨?_,?_⟩⟩
  · rw [name_inj]
    exact hinv.replays.found_iff (LockedList.Reaches.log_subset h' hp) hq
  · obtain ⟨n,hn,rfl⟩ := hinv.node_of_found (LockedList.Reaches.log_subset h' hp)
    rw [text,name,BitVec.add_sub_cancel,hn]
    rfl

/-- Two threads register one name. -/
theorem selRegisterName_interns_play :
    ∃ s s' : Selectors Bool, Reaches step State.start s ∧ Reaches step s s' ∧ s.log.length = 1 ∧ s'.log.length = 2 ∧
      s'.text 0x1008 = some "play".toList := by
  let s₀ : Selectors Bool := State.start
  let s₁ := s₀.goto false (.waiting "play".toList (some ()))
  let s₂ := s₁.goto true (.waiting "play".toList (some ()))
  let s₃ : Selectors Bool := { s₂.goto false (.walking "play".toList (some ()) s₂.head) with holder := some false }
  let s₄ := (s₃.link 0x1000 "play".toList ()).answer false "play".toList (some ()) (some 0x1000)
  let s₅ : Selectors Bool := { s₄.goto false .idle with holder := none }
  let s₆ : Selectors Bool := { s₅.goto true (.walking "play".toList (some ()) s₅.head) with holder := some true }
  let s₇ := s₆.answer true "play".toList (some ()) (some 0x1000)
  have h₁ : Reaches step s₀ s₁ := .single ⟨false,Step.call s₀ _ _ rfl⟩
  have h₂ : Reaches step s₀ s₂ := h₁.tail (Step.call s₁ _ _ rfl : step true _ _)
  have h₃ : Reaches step s₀ s₃ := h₂.tail (Step.lock s₂ _ _ rfl rfl : step false _ _)
  have h₄ : Reaches step s₀ s₄ := h₃.tail (Step.insert s₃ _ _ 0x1000 rfl rfl : step false _ _)
  have h₅ : Reaches step s₄ s₅ := .single ⟨false,Step.unlock s₄ "play".toList (some ()) (some 0x1000) rfl⟩
  have h₆ : Reaches step s₄ s₆ := h₅.tail (Step.lock s₅ _ _ rfl rfl : step true _ _)
  have h₇ : Reaches step s₄ s₇ := h₆.tail (Step.found s₆ _ _ 0x1000 ⟨none,"play".toList,()⟩ rfl rfl rfl : step true _ _)
  exact ⟨s₄,s₇,h₄,h₇,rfl,rfl,((selRegisterName_interns h₄ h₇).2 "play".toList "play".toList (some ()) (some ())
    0x1000 0x1000 List.mem_cons_self List.mem_cons_self).2⟩

end Selectors

end Machismo.Shim

/-! # The string cache

`hash_search` asks a table for the value of a key and brings a value to put there if it has none, or
NULL only to ask. A table is a list behind a mutex; an entry is never changed or taken out. Where no
memory is left the answer is NULL and the table stays as it is.
-/
namespace Machismo.Shim
open A64 Data Data.Threads Data.LockedList

/-- What can be put into a table: any pointer but NULL. -/
abbrev CacheValue := {a : Addr // a ≠ 0}

/-- A table with the threads in `hash_search`; `hash_create` gives the one at the start. -/
abbrev HashTable (T : Type) := LockedList.State T Addr (List Char) CacheValue

namespace HashTable
variable {T : Type} [DecidableEq T]

abbrev step (t : T) : HashTable T → HashTable T → Prop := LockedList.Step True t

/-- The calls answered so far with the value each brought and the one it was answered with. -/
def answers (s : HashTable T) : List (List Char × Option CacheValue × Option CacheValue) :=
  s.log.map (Call.values s.node)

/-- However the threads take turns, the answers are those of a map that takes a value for a key only
where it has none. So all who get a value for a key get the same one, and somebody brought it. -/
theorem hashSearch_linearizes {s : HashTable T} (h : Reaches step State.start s) :
    (∃ m, Answers True s.answers m) ∧
    ∀ key v w x y, (key,v,some x) ∈ s.answers → (key,w,some y) ∈ s.answers →
      x = y ∧ (key,some x,some x) ∈ s.answers := by
  obtain ⟨c,hinv⟩ := LockedList.Reaches.inv h
  have hanswers : Answers True s.answers (Contents.value c) := hinv.replays.answers fun _ he => hinv.chain.mem he
  refine ⟨⟨_,hanswers⟩,fun key v w x y hx hy => ⟨?_,hanswers.brought (hanswers.value_eq hx)⟩⟩
  have hvalue := (hanswers.value_eq hx).symm.trans (hanswers.value_eq hy)
  exact Option.some.inj hvalue

/-- One thread puts a value for a key, another one brings its own and gets the first. -/
theorem hashSearch_linearizes_two :
    ∃ s : HashTable Bool, Reaches step State.start s ∧
      s.answers = [("font".toList,some ⟨0x9000,by decide⟩,some ⟨0x8000,by decide⟩),
        ("font".toList,some ⟨0x8000,by decide⟩,some ⟨0x8000,by decide⟩)] ∧ ∃ m, Answers True s.answers m := by
  let first : CacheValue := ⟨0x8000,by decide⟩
  let second : CacheValue := ⟨0x9000,by decide⟩
  let s₀ : HashTable Bool := State.start
  let s₁ := s₀.goto false (.waiting "font".toList (some first))
  let s₂ := s₁.goto true (.waiting "font".toList (some second))
  let s₃ : HashTable Bool := { s₂.goto false (.walking "font".toList (some first) s₂.head) with holder := some false }
  let s₄ := (s₃.link 0x1000 "font".toList first).answer false "font".toList (some first) (some 0x1000)
  let s₅ : HashTable Bool := { s₄.goto false .idle with holder := none }
  let s₆ : HashTable Bool := { s₅.goto true (.walking "font".toList (some second) s₅.head) with holder := some true }
  let s₇ := s₆.answer true "font".toList (some second) (some 0x1000)
  have h₁ : Reaches step s₀ s₁ := .single ⟨false,Step.call s₀ _ _ rfl⟩
  have h₂ : Reaches step s₀ s₂ := h₁.tail (Step.call s₁ _ _ rfl : step true _ _)
  have h₃ : Reaches step s₀ s₃ := h₂.tail (Step.lock s₂ _ _ rfl rfl : step false _ _)
  have h₄ : Reaches step s₀ s₄ := h₃.tail (Step.insert s₃ _ _ 0x1000 rfl rfl : step false _ _)
  have h₅ : Reaches step s₀ s₅ := h₄.tail (Step.unlock s₄ "font".toList (some first) (some 0x1000) rfl : step false _ _)
  have h₆ : Reaches step s₀ s₆ := h₅.tail (Step.lock s₅ _ _ rfl rfl : step true _ _)
  have h₇ : Reaches step s₀ s₇ :=
    h₆.tail (Step.found s₆ _ _ 0x1000 ⟨none,"font".toList,first⟩ rfl rfl rfl : step true _ _)
  exact ⟨s₇,h₇,rfl,(hashSearch_linearizes h₇).1⟩

end HashTable

end Machismo.Shim

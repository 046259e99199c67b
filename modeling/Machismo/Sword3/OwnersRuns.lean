import Machismo.Sword3.Owners

/-! # What the owner tables hold over a run

A row of the table lists the live objects of its kind as long as the host frees nothing
behind the bridge: a renderer goes after its textures, the game leaves the closing of the
host's RWops to SDL_image, and the video is quit when no window is left.  Each other call
changes the row and the host's objects alike.
-/
namespace Machismo.Sword3Owners
open Machismo.Data

inductive Call
  | createWindow (fullscreenDesktop fullscreen : Ptr)
  | destroyWindow (window : Ptr)
  | videoQuit
  | createRenderer (window asked software default : Ptr)
  | destroyRenderer (renderer : Ptr)
  | createTexture (renderer texture : Ptr)
  | createTextureFromSurface (renderer surface texture : Ptr)
  | destroyTexture (texture : Ptr)
  | createSurface (surface : Ptr)
  | convertSurfaceFormat (src surface : Ptr)
  | convertSurface (src : Ptr) (hasFormat : Bool) (surface : Ptr)
  | freeSurface (surface : Ptr)
  | rwFromFile (rw : Ptr)
  | closeRw (rw : Ptr)
  | imgLoadRw (rw : Ptr) (freesrc : Bool) (surface : Ptr)
  | movieEnsureTexture (renderer : Ptr) (width height : ℤ) (texture : Ptr)
  | movieClose
  | checkOwners (objects : List (SdlKind×Ptr))

/-- One call; nothing is returned when the bridge aborts. -/
def step (b : Bridge) : Call → Option Bridge
  | .createWindow p q => createWindow p q b
  | .destroyWindow window => destroyWindow window b
  | .videoQuit => videoQuit b
  | .createRenderer window p q r => createRenderer window p q r b
  | .destroyRenderer renderer => destroyRenderer renderer b
  | .createTexture renderer texture => createTexture renderer texture b
  | .createTextureFromSurface renderer surface texture => createTextureFromSurface renderer surface texture b
  | .destroyTexture texture => destroyTexture texture b
  | .createSurface surface => createSurface surface b
  | .convertSurfaceFormat src surface => convertSurfaceFormat src surface b
  | .convertSurface src hasFormat surface => convertSurface src hasFormat surface b
  | .freeSurface surface => freeSurface surface b
  | .rwFromFile rw => rwFromFile rw b
  | .closeRw rw => closeRw rw b
  | .imgLoadRw rw freesrc surface => imgLoadRw rw freesrc surface b
  | .movieEnsureTexture renderer width height texture => movieEnsureTexture renderer width height texture b
  | .movieClose => movieClose b
  | .checkOwners objects => checkOwners objects b

/-- The host answers NULL or an address at which it has no object of the kind. -/
def Bridge.Answer (kind : SdlKind) (pointer : Ptr) (b : Bridge) : Prop := pointer = 0 ∨ pointer ∉ b.live kind

/-- What is known of the host's answers in a call. -/
def Fresh (b : Bridge) : Call → Prop
  | .createWindow p q => b.Answer .window (firstMade [p,q])
  | .createRenderer _ p q r => b.Answer .renderer (firstMade [p,q,r])
  | .createTexture _ texture => b.Answer .texture texture
  | .createTextureFromSurface _ _ texture => b.Answer .texture texture
  | .createSurface surface => b.Answer .surface surface
  | .convertSurfaceFormat _ surface => b.Answer .surface surface
  | .convertSurface _ _ surface => b.Answer .surface surface
  | .rwFromFile rw => b.Answer .rwops rw
  | .imgLoadRw _ _ surface => b.Answer .surface surface
  | .movieEnsureTexture _ _ _ texture => ∀ b', movieDestroyTexture b = some b' → b'.Answer .texture texture
  | _ => True

/-- The host frees nothing behind the bridge in a call. -/
def Good (b : Bridge) : Call → Prop
  | .destroyRenderer renderer => renderer ≠ 0 → ∀ texture ∈ b.live .texture, b.rendererOf texture ≠ renderer
  | .closeRw rw => rw ≠ 0 → rw ∉ b.live .rwops
  | .videoQuit => b.live .window = ∅
  | _ => True

/-- Each row lists the live objects of its kind. -/
def Exact (b : Bridge) : Prop := ∀ kind, Enumerates (b.owners kind) (b.live kind)

theorem exact_start : Exact .start := fun kind => ⟨List.nodup_nil,fun p => by simp [Bridge.start]⟩

section Rows
variable {b b' : Bridge} {kind : SdlKind} {p : Ptr}

@[simp] theorem made_owners : (b.made kind p).owners = b.owners := by
  unfold Bridge.made
  split_ifs <;> rfl

@[simp] theorem freed_owners : (b.freed kind p).owners = b.owners := by
  unfold Bridge.freed
  split_ifs <;> rfl

theorem ownerCheck_some (h : ownerCheck kind p b = some b') : b' = b := by
  unfold ownerCheck at h
  split_ifs at h
  · exact (Option.some.inj h).symm
  · exact (Option.some.inj h).symm

theorem of_ownerCheck {next : Bridge → Option Bridge} (h : (ownerCheck kind p b).bind next = some b') :
    next b = some b' := by
  obtain ⟨checked,hcheck,hnext⟩ := Option.bind_eq_some_iff.mp h
  exact ownerCheck_some hcheck ▸ hnext

theorem ownerContains_iff (hb : Exact b) : ownerContains kind p b = true ↔ p ∈ b.live kind := by
  rw [ownerContains,List.contains_iff_mem,(hb kind).2]

theorem Exact.update (hb : Exact b) {owners : List Ptr} {live : Finset Ptr} (h : Enumerates owners live)
    (ho : b'.owners = Function.update b.owners kind owners) (hl : b'.live = Function.update b.live kind live) :
    Exact b' := by
  intro k
  rw [ho,hl]
  rcases eq_or_ne k kind with rfl | hk
  · simpa only [Function.update_self] using h
  · simpa only [Function.update_of_ne hk] using hb k

theorem Exact.register {b₁ : Bridge} (hb : Exact b) (hp : b.Answer kind p) (ho : b₁.owners = b.owners)
    (hl : b₁.live = (b.made kind p).live) (h : ownerRegister kind p b₁ = some b') : Exact b' := by
  unfold ownerRegister at h
  unfold Bridge.made at hl
  by_cases h0 : p = 0
  · rw [if_pos h0] at h hl
    obtain rfl := Option.some.inj h
    unfold Exact
    rwa [ho,hl]
  · rw [if_neg h0] at h hl
    split_ifs at h
    obtain rfl := Option.some.inj h
    exact hb.update ((hb kind).push (hp.resolve_left h0)) (by rw [ho]) hl

theorem Exact.registerMade (hb : Exact b) (hp : b.Answer kind p)
    (h : ownerRegister kind p (b.made kind p) = some b') : Exact b' := hb.register hp made_owners rfl h

theorem Exact.registerTexture {renderer : Ptr} (hb : Exact b) (hp : b.Answer .texture p)
    (h : ownerRegister .texture p (b.madeTexture renderer p) = some b') : Exact b' := by
  have howners : (b.madeTexture renderer p).owners = b.owners := made_owners
  exact hb.register hp howners rfl h

theorem Exact.remove (hb : Exact b) (hp : p ∈ b.live kind) (h0 : p ≠ 0) :
    Exact ((removeEntry kind p b).freed kind p) := by
  refine hb.update ((hb kind).remove (((hb kind).2 p).mpr hp)) freed_owners ?_
  rw [Bridge.freed,if_neg h0]
  rfl

theorem Exact.unregister (hb : Exact b) (h : ownerUnregister kind p b = some b') : Exact (b'.freed kind p) := by
  unfold ownerUnregister at h
  by_cases h0 : p = 0
  · rw [if_pos h0,Option.some.injEq] at h
    rw [Bridge.freed,if_pos h0]
    exact h ▸ hb
  · rw [if_neg h0] at h
    split_ifs at h with hmem
    obtain rfl := Option.some.inj h
    exact hb.remove ((ownerContains_iff hb).mp hmem) h0

theorem ownerUnregister_frame (h : ownerUnregister kind p b = some b') :
    b'.live = b.live ∧ b'.rendererOf = b.rendererOf := by
  unfold ownerUnregister at h
  split_ifs at h
  · exact Option.some.inj h ▸ ⟨rfl,rfl⟩
  · exact Option.some.inj h ▸ ⟨rfl,rfl⟩

theorem freed_of_notMem (hp : p ∉ b.live kind) : b.freed kind p = b := by
  unfold Bridge.freed
  split_ifs
  · rfl
  · rw [Finset.erase_eq_of_notMem hp,Function.update_eq_self]

theorem ownerDrop_freed (kind : SdlKind) (p : Ptr) (b : Bridge) :
    ownerDrop kind p (b.freed kind p) = (ownerDrop kind p b).freed kind p := by
  unfold ownerDrop Bridge.freed removeEntry ownerContains
  split_ifs <;> rfl

theorem ownerDrop_made (kind made : SdlKind) (p q : Ptr) (b : Bridge) :
    ownerDrop kind p (b.made made q) = (ownerDrop kind p b).made made q := by
  unfold ownerDrop Bridge.made removeEntry ownerContains
  split_ifs <;> rfl

theorem freed_made (surface rw : Ptr) (b : Bridge) :
    (b.made .surface surface).freed .rwops rw = (b.freed .rwops rw).made .surface surface := by
  have hne : SdlKind.surface ≠ SdlKind.rwops := by decide
  unfold Bridge.made Bridge.freed
  split_ifs
  · rfl
  · rfl
  · rfl
  · simp only [Function.update_of_ne hne,Function.update_of_ne hne.symm,Function.update_comm hne]

theorem Exact.drop (hb : Exact b) : Exact ((ownerDrop kind p b).freed kind p) := by
  unfold ownerDrop
  split_ifs with h0 hmem
  · rwa [Bridge.freed,if_pos h0]
  · exact hb.remove ((ownerContains_iff hb).mp hmem) h0
  · rwa [freed_of_notMem fun h => hmem ((ownerContains_iff hb).mpr h)]

theorem Exact.destroyMovieTexture (hb : Exact b) (h : movieDestroyTexture b = some b') : Exact b' := by
  unfold movieDestroyTexture at h
  split_ifs at h
  · exact Option.some.inj h ▸ hb
  · obtain ⟨dropped,hdropped,hsome⟩ := Option.bind_eq_some_iff.mp h
    obtain rfl := Option.some.inj hsome
    exact hb.unregister hdropped

/-- Rows that are not touched are exact after the host freed objects if and only if none of theirs was among them. -/
theorem exact_iff_live {live : Finset Ptr} (hb : Exact b) (ho : b'.owners = b.owners)
    (hl : b'.live = Function.update b.live kind live) : Exact b' ↔ b.live kind = live := by
  constructor
  · intro hb'
    have hrow := hb' kind
    rw [ho,hl,Function.update_self] at hrow
    exact (hb kind).iff_eq.mp hrow
  · rintro rfl
    rw [Function.update_eq_self] at hl
    unfold Exact
    rwa [ho,hl]

theorem exact_freed (hb : Exact b) : Exact (b.freed kind p) ↔ (p ≠ 0 → p ∉ b.live kind) := by
  by_cases h0 : p = 0
  · rw [Bridge.freed,if_pos h0]
    exact iff_of_true hb fun h => absurd h0 h
  · have hlive : (b.freed kind p).live = Function.update b.live kind ((b.live kind).erase p) := by
      rw [Bridge.freed,if_neg h0]
    rw [exact_iff_live hb freed_owners hlive,eq_comm,Finset.erase_eq_self]
    exact ⟨fun h _ => h,fun h => h h0⟩

theorem exact_freedRenderer (hb : Exact (b.freed .renderer p)) : Exact (b.freedRenderer p) ↔
    (p ≠ 0 → ∀ texture ∈ b.live .texture, b.rendererOf texture ≠ p) := by
  by_cases h0 : p = 0
  · rw [Bridge.freed,if_pos h0] at hb
    rw [Bridge.freedRenderer,if_pos h0]
    exact iff_of_true hb fun h => absurd h0 h
  · have hlive : (b.freed .renderer p).live .texture = b.live .texture := by
      rw [Bridge.freed,if_neg h0]
      rfl
    have hrenderer : (b.freed .renderer p).rendererOf = b.rendererOf := by rw [Bridge.freed,if_neg h0]
    have hfreed : (b.freedRenderer p).live = Function.update (b.freed .renderer p).live .texture
        ((b.live .texture).filter (b.rendererOf · ≠ p)) := by
      rw [Bridge.freedRenderer,if_neg h0,← hlive,← hrenderer]
    have howners : (b.freedRenderer p).owners = (b.freed .renderer p).owners := by rw [Bridge.freedRenderer,if_neg h0]
    rw [exact_iff_live hb howners hfreed,eq_comm,hlive,Finset.filter_eq_self]
    exact ⟨fun h _ => h,fun h => h h0⟩

/-- However `load_typed_rw` reads the image, the RWops is closed and leaves its row, or neither. -/
theorem loadTypedRw_eq (rw : Ptr) (freesrc : Bool) (surface : Ptr) (b : Bridge) :
    loadTypedRw rw freesrc surface b = (guestRwClose rw freesrc b).made .surface surface := by
  unfold loadTypedRw guestRwClose
  by_cases h0 : rw = 0
  · rw [if_pos h0,if_pos (.inl h0)]
  · rw [if_neg h0]
    cases freesrc with
    | false =>
      have hkept : rw = 0 ∨ false = false := .inr rfl
      rw [if_pos hkept,if_neg Bool.false_ne_true,ite_self]
    | true =>
      have hclosed : ¬(rw = 0 ∨ true = false) := not_or.mpr ⟨h0,Bool.noConfusion⟩
      rw [if_neg hclosed,if_pos rfl,ownerDrop_freed,ownerDrop_made,freed_made,ite_self]

theorem Exact.guestRwClose (hb : Exact b) {freesrc : Bool} : Exact (guestRwClose p freesrc b) := by
  unfold Sword3Owners.guestRwClose
  split_ifs
  · exact hb
  · exact hb.drop

theorem guestRwClose_live_surface (rw : Ptr) (freesrc : Bool) (b : Bridge) :
    (guestRwClose rw freesrc b).live .surface = b.live .surface := by
  unfold guestRwClose ownerDrop removeEntry Bridge.freed
  split_ifs <;> rfl

theorem checkOwners_some {objects : List (SdlKind×Ptr)} (h : checkOwners objects b = some b') : b' = b := by
  induction objects with
  | nil => exact (Option.some.inj h).symm
  | cons object objects ih => exact ih (of_ownerCheck h)

theorem Exact.movieEnsureTexture (hb : Exact b) {renderer texture : Ptr} {width height : ℤ}
    (hf : ∀ dropped, movieDestroyTexture b = some dropped → dropped.Answer .texture texture)
    (h : movieEnsureTexture renderer width height texture b = some b') : Exact b' := by
  unfold Sword3Owners.movieEnsureTexture at h
  by_cases hsame : b.movieTexture ≠ 0 ∧ b.movieSize = (width,height)
  · rw [if_pos hsame] at h
    exact Option.some.inj h ▸ hb
  · rw [if_neg hsame] at h
    obtain ⟨dropped,hdropped,hnext⟩ := Option.bind_eq_some_iff.mp h
    have hexact := hb.destroyMovieTexture hdropped
    by_cases h0 : texture = 0
    · obtain rfl := Option.some.inj ((if_pos h0).symm.trans hnext)
      have hmade : dropped.made .texture texture = dropped := by rw [Bridge.made,if_pos h0]
      have hkept : Exact (dropped.made .texture texture) := by rwa [hmade]
      exact hkept
    · obtain ⟨registered,hregistered,hlast⟩ := Option.bind_eq_some_iff.mp ((if_neg h0).symm.trans hnext)
      obtain rfl := Option.some.inj hlast
      have howners : ({dropped.madeTexture renderer texture with movieTexture := texture} : Bridge).owners =
          dropped.owners := made_owners
      have hentered : Exact registered := hexact.register (hf _ hdropped) howners rfl hregistered
      exact hentered

end Rows

/-- A call that completes leaves the tables exact if and only if the host freed nothing behind the bridge. -/
theorem step_exact {b b' : Bridge} {call : Call} (hb : Exact b) (hf : Fresh b call) (h : step b call = some b') :
    Exact b' ↔ Good b call := by
  cases call with
  | createWindow p q => exact iff_of_true (hb.registerMade hf h) trivial
  | destroyWindow window => exact iff_of_true (ownerCheck_some h ▸ hb) trivial
  | videoQuit =>
    obtain rfl := Option.some.inj h
    exact exact_iff_live hb rfl rfl
  | createRenderer window p q r =>
    have hnext := of_ownerCheck h
    exact iff_of_true (hb.registerMade hf hnext) trivial
  | destroyRenderer renderer =>
    obtain ⟨dropped,hdropped,hsome⟩ := Option.bind_eq_some_iff.mp h
    obtain rfl := Option.some.inj hsome
    obtain ⟨hlive,hrenderer⟩ := ownerUnregister_frame hdropped
    rw [exact_freedRenderer (hb.unregister hdropped),hlive,hrenderer]
    exact Iff.rfl
  | createTexture renderer texture =>
    have hnext := of_ownerCheck h
    exact iff_of_true (hb.registerTexture hf hnext) trivial
  | createTextureFromSurface renderer surface texture =>
    have hnext := of_ownerCheck (of_ownerCheck h)
    exact iff_of_true (hb.registerTexture hf hnext) trivial
  | destroyTexture texture =>
    obtain ⟨dropped,hdropped,hsome⟩ := Option.bind_eq_some_iff.mp h
    obtain rfl := Option.some.inj hsome
    exact iff_of_true (hb.unregister hdropped) trivial
  | createSurface surface => exact iff_of_true (hb.registerMade hf h) trivial
  | convertSurfaceFormat src surface =>
    have hnext := of_ownerCheck h
    exact iff_of_true (hb.registerMade hf hnext) trivial
  | convertSurface src hasFormat surface =>
    have hnext := of_ownerCheck h
    split_ifs at hnext
    · exact iff_of_true (hb.registerMade hf hnext) trivial
    · exact iff_of_true (Option.some.inj hnext ▸ hb) trivial
  | freeSurface surface =>
    obtain ⟨dropped,hdropped,hsome⟩ := Option.bind_eq_some_iff.mp h
    obtain rfl := Option.some.inj hsome
    exact iff_of_true (hb.unregister hdropped) trivial
  | rwFromFile rw => exact iff_of_true (hb.registerMade hf h) trivial
  | closeRw rw =>
    obtain rfl := Option.some.inj h
    exact exact_freed hb
  | imgLoadRw rw freesrc surface =>
    have hnext : ownerRegister .surface surface (loadTypedRw rw freesrc surface b) = some b' := h
    rw [loadTypedRw_eq] at hnext
    have hanswer : (guestRwClose rw freesrc b).Answer .surface surface := by
      unfold Bridge.Answer
      rw [guestRwClose_live_surface]
      exact hf
    exact iff_of_true (hb.guestRwClose.registerMade hanswer hnext) trivial
  | movieEnsureTexture renderer width height texture => exact iff_of_true (hb.movieEnsureTexture hf h) trivial
  | movieClose =>
    obtain ⟨dropped,hdropped,hsome⟩ := Option.bind_eq_some_iff.mp h
    obtain rfl := Option.some.inj hsome
    have hexact : Exact dropped := hb.destroyMovieTexture hdropped
    exact iff_of_true hexact trivial
  | checkOwners objects => exact iff_of_true (checkOwners_some h ▸ hb) trivial

/-- The rows are exact, a check accepts the live objects and no others, and a row with room is never found full. -/
structure Sound (b : Bridge) : Prop where
  exact : ∀ kind, (b.owners kind).Nodup ∧ ∀ p, p ∈ b.owners kind ↔ p ∈ b.live kind
  check : ∀ kind p, p ≠ 0 → ((ownerCheck kind p b).isSome ↔ p ∈ b.live kind)
  register : ∀ kind p, (b.live kind).card < ownerCap → (ownerRegister kind p b).isSome

theorem Exact.sound {b : Bridge} (hb : Exact b) : Sound b where
  exact := hb
  check kind p h0 := by
    rw [← ownerContains_iff hb,ownerCheck,if_neg h0]
    split_ifs with hmem
    · exact iff_of_true rfl hmem
    · exact iff_of_false Bool.false_ne_true hmem
  register kind p hroom := by
    unfold ownerRegister
    rw [(hb kind).length_eq]
    split_ifs with h0 hfull
    · rfl
    · exact absurd hroom (not_lt.mpr hfull)
    · rfl

theorem sound_iff_exact {b : Bridge} : Sound b ↔ Exact b := ⟨Sound.exact,Exact.sound⟩

def Throughout (P : Bridge → Prop) : List Call → Bridge → Prop
  | [], b => P b
  | call :: calls, b => P b ∧ ∀ b', step b call = some b' → Throughout P calls b'

/-- What holds of every call that completes in a sequence of calls. -/
def AtEachCall (Q : Bridge → Call → Prop) : List Call → Bridge → Prop
  | [], _ => True
  | call :: calls, b => ∀ b', step b call = some b' → Q b call ∧ AtEachCall Q calls b'

theorem Throughout.head {P : Bridge → Prop} {calls : List Call} {b : Bridge} (h : Throughout P calls b) : P b := by
  cases calls with
  | nil => exact h
  | cons call calls => exact h.1

theorem throughout_iff {calls : List Call} {b : Bridge} (hb : Exact b) (hf : AtEachCall Fresh calls b) :
    Throughout Sound calls b ↔ AtEachCall Good calls b := by
  induction calls generalizing b with
  | nil => exact iff_of_true hb.sound trivial
  | cons call calls ih =>
    constructor
    · rintro ⟨-,hrest⟩ b' hstep
      obtain ⟨hfresh,hfrest⟩ := hf b' hstep
      have hexact := (hrest b' hstep).head.exact
      exact ⟨(step_exact hb hfresh hstep).mp hexact,(ih hexact hfrest).mp (hrest b' hstep)⟩
    · intro hgood
      refine ⟨hb.sound,fun b' hstep => ?_⟩
      obtain ⟨hfresh,hfrest⟩ := hf b' hstep
      obtain ⟨hcall,hcalls⟩ := hgood b' hstep
      exact (ih ((step_exact hb hfresh hstep).mpr hcall) hfrest).mpr hcalls

/-- The tables mirror the host's objects throughout a run exactly when the host frees nothing behind the bridge. -/
theorem owners_sound_iff (calls : List Call) (hf : AtEachCall Fresh calls .start) :
    Throughout Sound calls .start ↔ AtEachCall Good calls .start := throughout_iff exact_start hf

/-- A window, its renderer and a texture, which is destroyed in time. -/
theorem owners_sound_texture : Throughout Sound
    [.createWindow 1 0,.createRenderer 1 2 0 0,.createTexture 2 3,.destroyTexture 3,.destroyRenderer 2] .start := by
  refine (owners_sound_iff _ ?_).mpr ?_
  · intro b h
    obtain rfl := Option.some.inj h
    refine ⟨.inr (by decide),fun b h => ?_⟩
    obtain rfl := Option.some.inj h
    refine ⟨.inr (by decide),fun b h => ?_⟩
    obtain rfl := Option.some.inj h
    refine ⟨.inr (by decide),fun b h => ?_⟩
    obtain rfl := Option.some.inj h
    exact ⟨trivial,fun b h => ⟨trivial,trivial⟩⟩
  · intro b h
    obtain rfl := Option.some.inj h
    refine ⟨trivial,fun b h => ?_⟩
    obtain rfl := Option.some.inj h
    refine ⟨trivial,fun b h => ?_⟩
    obtain rfl := Option.some.inj h
    refine ⟨trivial,fun b h => ?_⟩
    obtain rfl := Option.some.inj h
    refine ⟨trivial,fun b h => ⟨fun _ texture hmem => ?_,trivial⟩⟩
    have hnone : (({3} : Finset Ptr).erase 3) = ∅ := by decide
    exact absurd (hnone ▸ hmem) (Finset.notMem_empty texture)

/-- The renderer is destroyed before its texture. -/
theorem owners_stale_texture :
    ∃ calls, AtEachCall Fresh calls .start ∧ ¬Throughout Sound calls .start := by
  refine ⟨[.createWindow 1 0,.createRenderer 1 2 0 0,.createTexture 2 3,.destroyRenderer 2],?_,fun h => ?_⟩
  · intro b h
    obtain rfl := Option.some.inj h
    refine ⟨.inr (by decide),fun b h => ?_⟩
    obtain rfl := Option.some.inj h
    refine ⟨.inr (by decide),fun b h => ?_⟩
    obtain rfl := Option.some.inj h
    exact ⟨.inr (by decide),fun b h => ⟨trivial,trivial⟩⟩
  · have hlast := (h.2 _ rfl).2 _ rfl |>.2 _ rfl |>.2 _ rfl
    have hstale := (hlast.exact .texture).2 3
    exact absurd hstale (by decide)

end Machismo.Sword3Owners

import Machismo.Sgr.Found

/-! # Extracted and packed again

The archive that `sgr_repack` makes of what `sgr_extract` wrote is the same, each file being the
one that was written for its entry, exactly when the names stay apart on disk and the manifest
can be read back.
-/
namespace Machismo.Sgr
open Machismo.A64 (Byte)
open Machismo.Data
open Machismo.Data.FileTree
open Machismo.Data.MakeWay
open Machismo.Data.Path (Name dot dotdot)
variable {nameMax : ℕ} {cwd d : List Name} {dir : List Char}

/-- The entries with their data marked by their positions, from 1 on. -/
def tagged (a : Archive) : List (List Char × (List Byte × Option ℕ)) :=
  (a.entries.zipIdx 1).map fun e => (asChars e.1.name,(e.1.data,some e.2))

def namesOf (a : Archive) : List (List Char) := a.entries.map fun e => asChars e.name

/-- Extracting an archive and packing the directory again gives the archive, and the file that is opened for
the manifest and for each entry is the one that was written for it: the manifest is marked with 0, what was there
before is not marked. -/
structure Restored (nameMax : ℕ) (cwd : List Name) (t : Files (List Byte)) (dir : List Char) (a : Archive) : Prop where
  same : ((extract nameMax cwd t dir a).bind fun t' => repackSource nameMax cwd t' dir) = some a
  own : ∃ t', extractFiles nameMax cwd (mapData (fun data => (data,none)) t) dir
      (manifest a,some 0) (tagged a) = some t' ∧
    stat nameMax t' cwd (manifestPath dir) = some (.file (manifest a,some 0)) ∧
    ∀ f ∈ tagged a, openEntry nameMax cwd t' dir f.1 = some f.2

theorem map_fst_tagged (a : Archive) : (tagged a).map Prod.fst = namesOf a := by
  rw [tagged,namesOf,List.map_map]
  conv_rhs => rw [← List.zipIdx_map_fst 1 a.entries,List.map_map]
  rfl

theorem map_data_tagged (a : Archive) : ((tagged a).map fun file => (file.1,file.2.1)) =
    a.entries.map fun e => (asChars e.name,e.data) := by
  rw [tagged,List.map_map]
  conv_rhs => rw [← List.zipIdx_map_fst 1 a.entries,List.map_map]
  rfl

theorem nodup_tagged (a : Archive) : ((manifest a,some 0)::(tagged a).map Prod.snd).Nodup := by
  refine List.nodup_cons.mpr ⟨fun hmem => ?_,?_⟩
  · obtain ⟨f,hf,heq⟩ := List.mem_map.mp hmem
    obtain ⟨e,he,rfl⟩ := List.mem_map.mp hf
    have hpos : 1 ≤ e.2 := List.le_snd_of_mem_zipIdx he
    simp only [Prod.mk.injEq,Option.some.injEq] at heq
    omega
  · have hmap : ((tagged a).map Prod.snd).map Prod.snd = ((a.entries.zipIdx 1).map Prod.snd).map some := by
      rw [tagged,List.map_map,List.map_map,List.map_map]
      rfl
    have htags : (((tagged a).map Prod.snd).map Prod.snd).Nodup := by
      rw [hmap,List.zipIdx_map_snd]
      exact List.Nodup.map (Option.some_injective ℕ) List.nodup_range'
    exact htags.of_map

theorem listing_of_mapM {entries : List (List Byte × Byte)} {read : List Byte × Byte → Option (List Byte)}
    {es : List Entry} (h : (entries.mapM fun e => (read e).map fun data => (⟨e.1,e.2,data⟩ : Entry)) = some es) :
    es.map (fun e => (e.name,e.type)) = entries := by
  induction entries generalizing es with
  | nil =>
    obtain rfl : [] = es := by simpa using h
    rfl
  | cons e entries ih =>
    rw [List.mapM_cons] at h
    obtain ⟨first,hfirst,htail⟩ := Option.bind_eq_some_iff.mp h
    obtain ⟨rest,hrest,heq⟩ := Option.bind_eq_some_iff.mp htail
    obtain ⟨data,-,rfl⟩ := Option.map_eq_some_iff.mp hfirst
    obtain rfl := Option.some.inj heq
    rw [List.map_cons,ih hrest]

variable {a : Archive} {t' : Files (List Byte × Option ℕ)}

theorem readListing_own (hmanifest : stat nameMax t' cwd (manifestPath dir) = some (.file (manifest a,some 0))) :
    readListing nameMax cwd (mapData Prod.fst t') dir = some (readManifest (manifest a)) := by
  rw [readListing,stat_mapData,hmanifest]
  rfl

theorem openEntry_own (hfound : ∀ f ∈ tagged a, openEntry nameMax cwd t' dir f.1 = some f.2) :
    ∀ e ∈ a.entries, openEntry nameMax cwd (mapData Prod.fst t') dir (asChars e.name) = some e.data := by
  intro e he
  rw [← List.zipIdx_map_fst 1 a.entries] at he
  obtain ⟨⟨e,i⟩,hi,rfl⟩ := List.mem_map.mp he
  rw [openEntry_mapData,hfound (asChars e.name,(e.data,some i)) (List.mem_map_of_mem hi)]
  rfl

theorem mapM_own (read : List Byte → Option (List Byte)) {es : List Entry}
    (h : ∀ e ∈ es, read e.name = some e.data) : ((es.map fun e => (e.name,e.type)).mapM fun e =>
      (read e.1).map fun data => (⟨e.1,e.2,data⟩ : Entry)) = some es := by
  induction es with
  | nil => rfl
  | cons e es ih =>
    obtain ⟨he,hes⟩ := List.forall_mem_cons.mp h
    rw [List.map_cons,List.mapM_cons,he,ih hes]
    rfl

/-- When each file is found, what is packed is the same exactly when the manifest can be read back. -/
theorem repackSource_own (hmanifest : stat nameMax t' cwd (manifestPath dir) = some (.file (manifest a,some 0)))
    (hfound : ∀ f ∈ tagged a, openEntry nameMax cwd t' dir f.1 = some f.2) :
    repackSource nameMax cwd (mapData Prod.fst t') dir = some a ↔ Listable a := by
  rw [repackSource,readListing_own hmanifest,Option.bind_some]
  constructor
  · intro h
    obtain ⟨es,hes,heq⟩ := Option.map_eq_some_iff.mp h
    have hentries := listing_of_mapM hes
    have hlisting : listing ⟨(readManifest (manifest a)).title,(readManifest (manifest a)).dev,
        (readManifest (manifest a)).root,es⟩ = readManifest (manifest a) := by rw [listing,hentries]
    rw [heq] at hlisting
    exact (readManifest_iff a).mp hlisting.symm
  · intro h
    rw [(readManifest_iff a).mpr h,listing]
    have hes : ((a.entries.map fun e => (e.name,e.type)).mapM fun e =>
        (openEntry nameMax cwd (mapData Prod.fst t') dir (asChars e.1)).map fun data => (⟨e.1,e.2,data⟩ : Entry)) =
          some a.entries :=
      mapM_own (fun name => openEntry nameMax cwd (mapData Prod.fst t') dir (asChars name)) (openEntry_own hfound)
    rw [hes]
    rfl

theorem extract_own {t : Files (List Byte)} (h : extractFiles nameMax cwd (mapData (fun data => (data,none)) t) dir
    (manifest a,some 0) (tagged a) = some t') : extract nameMax cwd t dir a = some (mapData Prod.fst t') := by
  have hmap : extractFiles nameMax cwd (mapData Prod.fst (mapData (fun data => (data,(none : Option ℕ))) t)) dir
      (manifest a) ((tagged a).map fun file => (file.1,file.2.1)) =
        (extractFiles nameMax cwd (mapData (fun data => (data,none)) t) dir (manifest a,some 0) (tagged a)).map
          (mapData Prod.fst) := extractFiles_mapData Prod.fst _ dir (manifest a,some 0) (tagged a)
  have hplain : mapData Prod.fst (mapData (fun data => (data,(none : Option ℕ))) t) = t := by
    funext p
    unfold mapData
    cases t p with
    | none => rfl
    | some node => cases node <;> rfl
  rw [h,Option.map_some,hplain,map_data_tagged] at hmap
  exact hmap

section Jobs
variable {D : Type} {t t' : Files D} {files : List (List Char × D)} {text : D}

/-- The work of extraction, with what is written. -/
def extractJobs (nameMax : ℕ) (d : List Name) (dir : List Char) (text : D) (files : List (List Char × D)) :
    List (Work (List Name) × D) :=
  (.put (manifestName dir::d) none,text)::
    files.flatMap fun f => (entryWork nameMax d dir f.1).map fun w => (w,f.2)

theorem map_fst_extractJobs (text : D) (files : List (List Char × D)) :
    (extractJobs nameMax d dir text files).map Prod.fst = extractWork nameMax d dir (files.map Prod.fst) := by
  simp [extractJobs,extractWork,List.map_flatMap,List.flatMap_map,Function.comp_def]

theorem put_mem_entryWork {n : List Char} {p : List Name} {l : Option (List Name)}
    (h : .put p l ∈ entryWork nameMax d dir n) : p = target d n ∧ l = firstLook nameMax d dir n := by
  rcases List.mem_append.mp h with h | h
  · obtain ⟨pieces,c,heq⟩ := mem_stopsFrom h
    cases heq
  · exact Work.put.inj (List.mem_singleton.mp h)

theorem put_mem_extractJobs {p : List Name} {l : Option (List Name)} {x : D}
    (h : (.put p l,x) ∈ extractJobs nameMax d dir text files) :
    (p = manifestName dir::d ∧ l = none ∧ x = text) ∨
      ∃ f ∈ files, p = target d f.1 ∧ l = firstLook nameMax d dir f.1 ∧ x = f.2 := by
  rcases List.mem_cons.mp h with heq | h
  · simp only [Prod.mk.injEq,Work.put.injEq] at heq
    exact .inl ⟨heq.1.1,heq.1.2,heq.2⟩
  · obtain ⟨f,hf,hjob⟩ := List.mem_flatMap.mp h
    obtain ⟨w,hw,heq⟩ := List.mem_map.mp hjob
    simp only [Prod.mk.injEq] at heq
    obtain ⟨rfl,rfl⟩ := heq
    obtain ⟨rfl,rfl⟩ := put_mem_entryWork hw
    exact .inr ⟨f,hf,rfl,rfl,rfl⟩

theorem marked_extractJobs (hnodup : (text::files.map Prod.snd).Nodup)
    (hfresh : ∀ x ∈ text::files.map Prod.snd, ¬Holds t x) : Marked (extractJobs nameMax d dir text files) t where
  fresh p l x h := by
    rcases put_mem_extractJobs h with ⟨-,-,rfl⟩ | ⟨f,hf,-,-,rfl⟩
    · exact hfresh x (List.mem_cons_self ..)
    · exact hfresh f.2 (List.mem_cons_of_mem _ (List.mem_map_of_mem hf))
  once := by
    obtain ⟨htext,hdata⟩ := List.nodup_cons.mp hnodup
    refine List.pairwise_cons.mpr ⟨fun j hj p l p' l' _ hj' => ?_,List.pairwise_flatMap.mpr ⟨fun f _ => ?_,?_⟩⟩
    · obtain ⟨f,hf,hjob⟩ := List.mem_flatMap.mp hj
      obtain ⟨w,-,rfl⟩ := List.mem_map.mp hjob
      rintro rfl
      exact htext (List.mem_map_of_mem hf)
    · -- the directories of one entry stand before its file
      rw [entryWork,List.map_append,List.map_singleton,List.pairwise_append]
      refine ⟨?_,List.pairwise_singleton _ _,?_⟩
      · refine List.pairwise_map.mpr (List.pairwise_of_forall_mem_list fun w hw w' _ p l p' l' hput _ => ?_)
        obtain ⟨pieces,c,rfl⟩ := mem_stopsFrom hw
        cases hput
      · intro j hj j' _ p l p' l' hput _
        obtain ⟨w,hw,rfl⟩ := List.mem_map.mp hj
        obtain ⟨pieces,c,rfl⟩ := mem_stopsFrom hw
        cases hput
    · refine (List.pairwise_map.mp hdata).imp fun hne j hj j' hj' p l p' l' _ _ => ?_
      obtain ⟨w,-,rfl⟩ := List.mem_map.mp hj
      obtain ⟨w',-,rfl⟩ := List.mem_map.mp hj'
      exact hne

theorem makes_stopsFrom {first rest : List Name} (hfirst : first <+: rest) (hne : first ≠ []) :
    Makes (stopsFrom nameMax d dir [] rest) (placeFrom d first) := by
  induction rest using List.reverseRecOn with
  | nil => exact absurd (List.prefix_nil.mp hfirst) hne
  | append_singleton rest c ih =>
    rw [stopsFrom_concat]
    rcases List.prefix_concat_iff.mp hfirst with rfl | hfirst
    · exact makes_concat.mpr (.inr ⟨_,rfl⟩)
    · exact (ih hfirst).mono (List.prefix_append _ _)

theorem keepsDirs_run {js : List (Work (List Name) × D)} (h : Run js t t') : KeepsDirs t t' :=
  fun p hp => (h.dir_iff p).mpr (.inl hp)

theorem Output.writeFiles_of_run (h : Output nameMax t cwd dir d) (hfits : ∀ f ∈ files, Fits dir f.1)
    (hnames : ∀ f ∈ files, ∀ c ∈ piecesOf f.1, c.length ≤ nameMax)
    (hrun : Run (files.flatMap fun f => (entryWork nameMax d dir f.1).map fun w => (w,f.2)) t t') :
    files.foldl (fun t f => writeFile nameMax cwd t dir f.1 f.2) t = t' := by
  induction files generalizing t with
  | nil => exact hrun
  | cons f files ih =>
    rw [List.flatMap_cons] at hrun
    obtain ⟨m,hf,hrest⟩ := run_append.mp hrun
    obtain ⟨hfit,hfits⟩ := List.forall_mem_cons.mp hfits
    obtain ⟨hname,hnames⟩ := List.forall_mem_cons.mp hnames
    rw [List.foldl_cons,h.writeFile_of_run hfit hname hf]
    exact ih (h.keep (keepsDirs_run hf)) hfits hnames hrest

theorem Output.run_of_writeFiles (h : Output nameMax t cwd dir d) (hfits : ∀ f ∈ files, Fits dir f.1)
    (hnodup : (files.map Prod.snd).Nodup) (hfresh : ∀ f ∈ files, ¬Holds t f.2)
    (hx : ∀ f ∈ files, Holds (files.foldl (fun t f => writeFile nameMax cwd t dir f.1 f.2) t) f.2) :
    Run (files.flatMap fun f => (entryWork nameMax d dir f.1).map fun w => (w,f.2)) t
        (files.foldl (fun t f => writeFile nameMax cwd t dir f.1 f.2) t) ∧
      ∀ f ∈ files, (∀ c ∈ piecesOf f.1, c.length ≤ nameMax) ∧ ∀ c ∈ (piecesOf f.1).getLast?, IsName c := by
  induction files generalizing t with
  | nil => exact ⟨rfl,fun f hf => absurd hf List.not_mem_nil⟩
  | cons f files ih =>
    rw [List.map_cons,List.nodup_cons] at hnodup
    obtain ⟨hfit,hfits⟩ := List.forall_mem_cons.mp hfits
    obtain ⟨hnew,hfresh⟩ := List.forall_mem_cons.mp hfresh
    rw [List.foldl_cons] at hx ⊢
    obtain ⟨hthere,hx⟩ := List.forall_mem_cons.mp hx
    have hwritten : Holds (writeFile nameMax cwd t dir f.1 f.2) f.2 := by
      obtain ⟨r,hr⟩ := hthere
      exact (filesFrom_writeFiles _ files r f.2 hr).resolve_left hnodup.1
    have hfresh' : ∀ g ∈ files, ¬Holds (writeFile nameMax cwd t dir f.1 f.2) g.2 := by
      rintro g hg ⟨r,hr⟩
      rcases filesFrom_writeFile t dir f.1 f.2 r g.2 hr with heq | hheld
      · exact hnodup.1 (heq ▸ List.mem_map_of_mem hg)
      · exact hfresh g hg hheld
    obtain ⟨hrun,hname⟩ := h.run_of_writeFile hfit hnew hwritten
    obtain ⟨hrest,hnames⟩ := ih (h.keep (keepsDirs_writeFile t dir f.1 f.2)) hfits hnodup.2 hfresh' hx
    rw [List.flatMap_cons]
    exact ⟨run_append.mpr ⟨_,hrun,hrest⟩,List.forall_mem_cons.mpr ⟨hname,hnames⟩⟩

theorem Output.openEntry_found (h : Output nameMax t cwd dir d)
    (hrun : Run (extractJobs nameMax d dir text files) t t') {f : List Char × D} (hf : f ∈ files)
    (hfits : Fits dir f.1) (hnames : ∀ c ∈ piecesOf f.1, c.length ≤ nameMax)
    (hfound : Found t' (target d f.1) (firstLook nameMax d dir f.1) f.2) :
    openEntry nameMax cwd t' dir f.1 = some f.2 := by
  have hout : Output nameMax t' cwd dir d := h.keep (keepsDirs_run hrun)
  have hdirs : ∀ first, first <+: (piecesOf f.1).dropLast → t' (placeFrom d first) = some .dir := by
    intro first hfirst
    by_cases hnil : first = []
    · rw [hnil,placeFrom_nil]
      exact hout.dirs.self
    · obtain ⟨s,hs⟩ : Makes (stopsFrom nameMax d dir [] (piecesOf f.1).dropLast) (placeFrom d first) :=
        makes_stopsFrom hfirst hnil
      have hmem : .make (placeFrom d first) s ∈ entryWork nameMax d dir f.1 := List.mem_append_left _ hs
      have hmakes : Makes (extractWork nameMax d dir (files.map Prod.fst)) (placeFrom d first) :=
        ⟨s,List.mem_cons_of_mem _ (List.mem_flatMap.mpr ⟨f.1,List.mem_map_of_mem hf,hmem⟩)⟩
      rw [← map_fst_extractJobs text] at hmakes
      exact (hrun.dir_iff _).mpr (.inr hmakes)
  exact hout.openEntry_iff.mpr (hfound.imp id fun ⟨hnone,hplace⟩ => ⟨hnone,hfits,hdirs,hnames,hplace⟩)

theorem Output.finished_of_own (h : Output nameMax t cwd dir d) (hnodup : (text::files.map Prod.snd).Nodup)
    (hfresh : ∀ x ∈ text::files.map Prod.snd, ¬Holds t x)
    (hextract : extractFiles nameMax cwd t dir text files = some t')
    (hmanifest : stat nameMax t' cwd (manifestPath dir) = some (.file text))
    (hfound : ∀ f ∈ files, openEntry nameMax cwd t' dir f.1 = some f.2) :
    (IsName (manifestName dir) ∧ (manifestName dir).length ≤ nameMax) ∧ (∀ f ∈ files, Fits dir f.1) ∧
      (∀ f ∈ files, (∀ c ∈ piecesOf f.1, c.length ≤ nameMax) ∧ ∀ c ∈ (piecesOf f.1).getLast?, IsName c) ∧
        Finished (extractJobs nameMax d dir text files) t t' := by
  obtain ⟨t₀,hcreate,rfl⟩ := Option.map_eq_some_iff.mp hextract
  rw [h.mkdirs] at hcreate
  obtain ⟨hname,hfirst⟩ := h.manifest_of_create hcreate
  have hout₀ : Output nameMax t₀ cwd dir d := h.keep (keepsDirs_create hcreate)
  have hout : Output nameMax (files.foldl (fun t f => writeFile nameMax cwd t dir f.1 f.2) t₀) cwd dir d :=
    hout₀.keep (keepsDirs_writeFiles t₀ files)
  have hopened := fun f hf => hout.openEntry_iff.mp (hfound f hf)
  have hfits : ∀ f ∈ files, Fits dir f.1 := by
    intro f hf
    rcases hopened f hf with ⟨p,hp,-⟩ | ⟨-,hfits,-⟩
    · obtain ⟨-,-,hroom,-⟩ := firstLook_eq_some hp
      rw [List.length_append,encodedName] at hroom
      unfold Fits
      omega
    · exact hfits
  have hheld : ∀ f ∈ files,
      Holds (files.foldl (fun t f => writeFile nameMax cwd t dir f.1 f.2) t₀) f.2 := by
    intro f hf
    rcases hopened f hf with ⟨p,-,hp⟩ | ⟨-,-,-,-,hp⟩
    · exact ⟨p,hp⟩
    · exact ⟨_,hp⟩
  have hfresh₀ : ∀ f ∈ files, ¬Holds t₀ f.2 := by
    rintro f hf ⟨r,hr⟩
    rcases filesFrom_create hcreate r f.2 hr with heq | hthere
    · exact (List.nodup_cons.mp hnodup).1 (heq ▸ List.mem_map_of_mem hf)
    · exact hfresh f.2 (List.mem_cons_of_mem _ (List.mem_map_of_mem hf)) hthere
  obtain ⟨hrun,hnames⟩ := hout₀.run_of_writeFiles hfits (List.nodup_cons.mp hnodup).2 hfresh₀ hheld
  have hall : Run (extractJobs nameMax d dir text files) t
      (files.foldl (fun t f => writeFile nameMax cwd t dir f.1 f.2) t₀) := by
    obtain ⟨m,hput,rfl⟩ := hfirst
    exact ⟨m,hput,hrun⟩
  refine ⟨hname,hfits,hnames,hall,marked_extractJobs hnodup hfresh,fun p l x hp => ?_⟩
  rcases put_mem_extractJobs hp with ⟨rfl,rfl,rfl⟩ | ⟨f,hf,rfl,rfl,rfl⟩
  · rw [stat,hout.resolvePath_manifest hname,Option.bind_some] at hmanifest
    exact .inr ⟨fun p' hp' => absurd hp' (by simp),hmanifest⟩
  · rcases hopened f hf with hlook | ⟨hnone,-,-,-,hplace⟩
    · exact .inl hlook
    · exact .inr ⟨hnone,hplace⟩

theorem Output.own_of_finished (h : Output nameMax t cwd dir d)
    (hname : IsName (manifestName dir) ∧ (manifestName dir).length ≤ nameMax) (hfits : ∀ f ∈ files, Fits dir f.1)
    (hnames : ∀ f ∈ files, ∀ c ∈ piecesOf f.1, c.length ≤ nameMax)
    (hfinished : Finished (extractJobs nameMax d dir text files) t t') :
    extractFiles nameMax cwd t dir text files = some t' ∧
      stat nameMax t' cwd (manifestPath dir) = some (.file text) ∧
        ∀ f ∈ files, openEntry nameMax cwd t' dir f.1 = some f.2 := by
  have hout : Output nameMax t' cwd dir d := h.keep (keepsDirs_run hfinished.run)
  refine ⟨?_,?_,fun f hf => ?_⟩
  · obtain ⟨t₀,hput,hrun⟩ := hfinished.run
    have hfirst : Run [(.put (manifestName dir::d) none,text)] t t₀ := ⟨t₀,hput,rfl⟩
    have hout₀ : Output nameMax t₀ cwd dir d := h.keep (keepsDirs_run hfirst)
    cases hput with
    | put hfree =>
      rw [extractFiles,h.mkdirs,create_eq (h.resolvePath_manifest hname) hfree,Option.map_some]
      exact congrArg some (hout₀.writeFiles_of_run hfits hnames hrun)
  · rw [stat,hout.resolvePath_manifest hname,Option.bind_some]
    rcases hfinished.found _ none text (List.mem_cons_self ..) with ⟨p,hp,-⟩ | ⟨-,hplace⟩
    · cases hp
    · exact hplace
  · refine h.openEntry_found hfinished.run hf (hfits f hf) (hnames f hf) (hfinished.found _ _ _ ?_)
    refine List.mem_cons_of_mem _ (List.mem_flatMap.mpr ⟨f,hf,?_⟩)
    exact List.mem_map.mpr ⟨_,List.mem_append_right _ (List.mem_singleton_self _),rfl⟩

end Jobs

theorem snd_of_unmarked {r : List Name} {x : List Byte × Option ℕ}
    (h : mapData (fun data => (data,(none : Option ℕ))) t r = some (.file x)) : x.2 = none := by
  unfold mapData at h
  obtain ⟨node,-,hnode⟩ := Option.map_eq_some_iff.mp h
  cases node with
  | dir => cases hnode
  | file data =>
    cases hnode
    rfl

/-- The archive comes back exactly when its manifest can be read back and its names are clear. -/
theorem restored_iff {t : Files (List Byte)} (hout : Output nameMax t cwd dir d) (hempty : EmptyDir t d)
    (a : Archive) : Restored nameMax cwd t dir a ↔ Listable a ∧ Clear nameMax d dir t (namesOf a) := by
  have hout' : Output nameMax (mapData (fun data => (data,(none : Option ℕ))) t) cwd dir d := by
    refine ⟨by rw [resolvePath_mapData,hout.path],fun p hp => ?_⟩
    rw [mapData,hout.dirs p hp]
    rfl
  have hfresh : ∀ x ∈ (manifest a,some 0)::(tagged a).map Prod.snd,
      ¬Holds (mapData (fun data => (data,(none : Option ℕ))) t) x := by
    rintro x hx ⟨r,hr⟩
    have hmark := snd_of_unmarked hr
    rcases List.mem_cons.mp hx with rfl | hx
    · cases hmark
    · obtain ⟨f,hf,rfl⟩ := List.mem_map.mp hx
      obtain ⟨e,-,rfl⟩ := List.mem_map.mp hf
      cases hmark
  have hjobs : (extractJobs nameMax d dir (manifest a,some 0) (tagged a)).map Prod.fst =
      extractWork nameMax d dir (namesOf a) := by rw [map_fst_extractJobs,map_fst_tagged]
  have hapart : Apart (dirsOf t) (filesOf t) (extractWork nameMax d dir (namesOf a)) :=
    apart_extractWork hempty (namesOf a)
  rw [← dirsOf_mapData (fun data => (data,(none : Option ℕ))) t,
    ← filesOf_mapData (fun data => (data,(none : Option ℕ))) t,← hjobs] at hapart
  constructor
  · rintro ⟨hsame,t',hextract,hmanifest,hfound⟩
    rw [extract_own hextract,Option.bind_some,repackSource_own hmanifest hfound] at hsame
    obtain ⟨hname,hfits,hnames,hfinished⟩ :=
      hout'.finished_of_own (nodup_tagged a) hfresh hextract hmanifest hfound
    have horderly := hfinished.orderly hapart
    rw [dirsOf_mapData,filesOf_mapData,hjobs] at horderly
    refine ⟨hsame,hname,?_,?_,horderly⟩
    · rw [← map_fst_tagged]
      exact List.forall_mem_map.mpr hfits
    · rw [← map_fst_tagged]
      exact List.forall_mem_map.mpr hnames
  · rintro ⟨hlistable,hname,hfits,hnames,horderly⟩
    rw [← map_fst_tagged] at hfits hnames
    rw [← dirsOf_mapData (fun data => (data,(none : Option ℕ))) t,
      ← filesOf_mapData (fun data => (data,(none : Option ℕ))) t,← hjobs] at horderly
    obtain ⟨t',hfinished⟩ := (finished_iff (marked_extractJobs (nodup_tagged a) hfresh) hapart).mpr horderly
    obtain ⟨hextract,hmanifest,hfound⟩ := hout'.own_of_finished hname
      (fun f hf => hfits f.1 (List.mem_map_of_mem hf)) (fun f hf => (hnames f.1 (List.mem_map_of_mem hf)).1) hfinished
    refine ⟨?_,t',hextract,hmanifest,hfound⟩
    rw [extract_own hextract,Option.bind_some,repackSource_own hmanifest hfound]
    exact hlistable

/-- What `sgr_repack` writes is the file it would make of the archive that was extracted. -/
theorem Restored.repackDir {t : Files (List Byte)} {a : Archive} (h : Restored nameMax cwd t dir a) (zlib : Zlib)
    (seeds : ℕ → BitVec 32) (seed : BitVec 32) : ((extract nameMax cwd t dir a).bind fun t' =>
      Machismo.Sgr.repackDir nameMax cwd zlib t' dir seeds seed) =
        some (repackFile zlib a.title a.dev a.root (a.entries.zipIdx.map fun e => (e.1,seeds e.2)) seed) := by
  obtain ⟨t',ht',hsource⟩ := Option.bind_eq_some_iff.mp h.same
  rw [ht',Option.bind_some,Machismo.Sgr.repackDir,hsource]
  rfl

def emptyOut : Files (List Byte) := fun p => if p = [] ∨ p = [['o']] then some .dir else none

theorem emptyOut_empty : EmptyDir emptyOut [['o']] := by
  intro p hp
  obtain ⟨a,l,rfl⟩ := List.exists_cons_of_ne_nil hp
  have hne : ¬(a::l++[['o']] = [] ∨ a::l++[['o']] = [['o']]) := by simp
  rw [emptyOut,if_neg hne]

theorem emptyOut_output : Output 255 emptyOut [] ['o'] [['o']] := by
  refine ⟨by decide,fun p hp => ?_⟩
  rcases List.suffix_cons_iff.mp hp with rfl | hp
  · rfl
  · rw [List.suffix_nil.mp hp]
    rfl

theorem emptyOut_no_files (p : List Name) : p ∉ filesOf emptyOut := by
  rintro ⟨x,hx⟩
  unfold emptyOut at hx
  split_ifs at hx
  cases hx

instance : DecidablePred (· ∈ dirsOf emptyOut) := fun p => inferInstanceAs (Decidable (emptyOut p = some .dir))

/-- The file `a` is moved for the directory of `a/b`, and found where it went; `c/../../x` is written next to the
directory, and found there. -/
theorem restored_moved : Restored 255 [] emptyOut ['o'] ⟨[],[],[],[⟨[0x61#8],0x66#8,[1#8]⟩,
    ⟨[0x61#8,0x2f#8,0x62#8],0x66#8,[2#8]⟩,
    ⟨[0x63#8,0x2f#8,0x2e#8,0x2e#8,0x2f#8,0x2e#8,0x2e#8,0x2f#8,0x78#8],0x66#8,[3#8]⟩]⟩ := by
  refine (restored_iff emptyOut_output emptyOut_empty _).mpr
    ⟨⟨by decide +kernel,by decide +kernel,by decide +kernel,by decide +kernel,by decide +kernel⟩,?_⟩
  refine ⟨by decide +kernel,?_,by decide +kernel,orderly_of_checked emptyOut_no_files ?_⟩
  · unfold Fits
    decide +kernel
  · decide +kernel

/-- `a/b` is moved for the directory of `a/b/c`, and not looked for where it went. -/
theorem not_restored_nested : ∃ a : Archive, (a.entries.map Entry.name).Nodup ∧
    (∀ e ∈ a.entries, e.name.length ≤ 511 ∧ e.name.head? ≠ some 0x2f#8) ∧
    Output 255 emptyOut [] ['o'] [['o']] ∧ EmptyDir emptyOut [['o']] ∧ ¬Restored 255 [] emptyOut ['o'] a := by
  refine ⟨⟨[],[],[],[⟨[0x61#8,0x2f#8,0x62#8],0x66#8,[1#8]⟩,⟨[0x61#8,0x2f#8,0x62#8,0x2f#8,0x63#8],0x66#8,[2#8]⟩]⟩,
    by decide,by decide,emptyOut_output,emptyOut_empty,fun h => ?_⟩
  have hnone : ((extract 255 [] emptyOut ['o'] ⟨[],[],[],[⟨[0x61#8,0x2f#8,0x62#8],0x66#8,[1#8]⟩,
      ⟨[0x61#8,0x2f#8,0x62#8,0x2f#8,0x63#8],0x66#8,[2#8]⟩]⟩).bind fun t' =>
        repackSource 255 [] t' ['o']).isSome = false := by decide +kernel
  rw [h.same] at hnone
  cases hnone

end Machismo.Sgr

import Machismo.Resolver.Chained
import Machismo.Resolver.DyldInfo

/-! # Images and deferred libraries

An image is read, its dylibs are opened as the mapping file says, and its fixups are carried out. Binds
to a deferred library wait until the first OpenGL context exists; they are then completed from the
copy of the table of dylibs that the last image left.
-/
namespace Machismo.Resolver
open A64

/-- The load commands the resolver looks at, with the fixup data they point to: `none` where these are
not in mapped memory. -/
inductive LoadCommand where
  | dylib (path : Name)
  | segment (seg : SegInfo)
  | chainedFixups (C : Option ChainedFixups)
  | dyldInfo (D : DyldInfo)
  | other

structure Parsed where
  dylibs : ℕ → DylibEntry
  ndylibs : ℕ
  segments : List SegInfo
  chained : Option (Option ChainedFixups)
  dyldInfo : Option DyldInfo

def zeroEntry : DylibEntry := ⟨[],.map,[],0,0⟩

def basenameFromPath (path : Name) : Name := (path.reverse.takeWhile (· ≠ '/')).reverse

def parseCommand (P : Parsed) : LoadCommand → Parsed
  | .dylib path =>
    { P with
      dylibs := if P.ndylibs < maxDylibs then
          Function.update P.dylibs P.ndylibs
            { zeroEntry with name := (basenameFromPath path).take 255, action := .skip }
        else P.dylibs
      ndylibs := P.ndylibs + 1 }
  | .segment seg => { P with segments := if P.segments.length < 16 then P.segments ++ [seg] else P.segments }
  | .chainedFixups C => { P with chained := some C }
  | .dyldInfo D => { P with dyldInfo := some D }
  | .other => P

/-- The table before the load commands are read; `beyond` is what memory holds after it. -/
def emptyTable (beyond : ℕ → DylibEntry) (i : ℕ) : DylibEntry := if i < maxDylibs then zeroEntry else beyond i

def parseLoadCommands (beyond : ℕ → DylibEntry) (commands : List LoadCommand) : Parsed :=
  commands.foldl parseCommand ⟨emptyTable beyond,0,[],none,none⟩

/-- A line of the mapping file. -/
structure Mapping where
  dylibPattern : Name
  soPath : Name

def findMapping (mappings : List Mapping) (name : Name) : Option Mapping :=
  mappings.find? fun m => m.dylibPattern <:+: name

def openDylib (E : Env) (mappings : List Mapping) (de : DylibEntry) : DylibEntry :=
  match findMapping mappings de.name with
  | none => { de with action := .skip }
  | some m =>
    if m.soPath = "STUB".toList then { de with action := .stub }
    else if m.soPath = "SKIP".toList then { de with action := .skip }
    else if "MACHO:".toList <+: m.soPath then
      let path := m.soPath.drop 6
      let info := E.dylibLoad path
      if info = 0 then { de with action := .skip } else { de with machoInfo := info, action := .macho, soPath := path }
    else if "DEFERRED:".toList <+: m.soPath then { de with action := .deferred, soPath := m.soPath.drop 9 }
    else
      let handle := E.dlopen m.soPath
      if handle = 0 then { de with handle := 0, action := .skip }
      else { de with handle := handle, soPath := m.soPath, action := .map }

/-- What an image is given by: load commands, place in memory, and the memory after the table. -/
structure ImageFile where
  commands : List LoadCommand
  slide : Addr
  mhAddr : Addr
  beyond : ℕ → DylibEntry

namespace ImageFile
variable (X : ImageFile)

def parsed : Parsed := parseLoadCommands X.beyond X.commands

/-- The image after `open_dylibs`. -/
def image (E : Env) (mappings : List Mapping) : Image where
  slide := X.slide
  mhAddr := X.mhAddr
  dylibs := fun i => if i < X.parsed.ndylibs ∧ i < maxDylibs then openDylib E mappings (X.parsed.dylibs i)
    else X.parsed.dylibs i
  ndylibs := X.parsed.ndylibs
  segments := X.parsed.segments

/-- Whether `open_dylibs` meets a deferred library. -/
def defers (E : Env) (mappings : List Mapping) : Bool :=
  (List.range (min X.parsed.ndylibs maxDylibs)).any fun i => ((X.image E mappings).dylibs i).action = .deferred

end ImageFile

def ResolverState.begin (st : ResolverState) (defers : Bool) : ResolverState :=
  { st with
    bindsResolved := 0, bindsStubbed := 0, bindsFailed := 0, rebasesApplied := 0
    deferred := { st.deferred with active := st.deferred.active || defers } }

/-- The copy of the table for the completion of deferred binds. -/
def saveDylibs (I : Image) (st : ResolverState) : ResolverState :=
  if st.deferred.active && !st.deferred.resolved then
    { st with deferred := { st.deferred with
        dylibs := fun i => if i < maxDylibs then I.dylibs i else st.deferred.dylibs i
        ndylibs := I.ndylibs } }
  else st

/-- The fixups of an image: success, and the state after; `none` if a chain does not end. -/
def processFixups (E : Env) (I : Image) (P : Parsed) (fuel : ℕ) (st : ResolverState) : Option (Bool × ResolverState) :=
  match P.chained with
  | some none => some (false,st)
  | some (some C) => (processChainedFixups E I C fuel st).map fun st => (true,st)
  | none =>
    match P.dyldInfo with
    | some D => some (processDyldInfo E I D st)
    | none => some (true,st)

/-- `resolver_resolve_fixups`, with whether it returns zero. -/
def resolveFixups (E : Env) (mappings : List Mapping) (strict : Bool) (fuel : ℕ) (X : ImageFile) (st : ResolverState) :
    Option (Bool × ResolverState) :=
  let P := X.parsed
  if P.chained.isNone ∧ P.dyldInfo.isNone then some (true,st.begin false)
  else
    let I := X.image E mappings
    (processFixups E I P fuel (st.begin (X.defers E mappings))).map fun (ok,st) =>
      if ok then
        let st := saveDylibs I st
        (!(decide (0 < st.bindsFailed) && strict),st)
      else (false,st)

/-- One iteration of the loop that opens the deferred libraries. -/
def openDeferred (E : Env) (st : ResolverState) (i : ℕ) : ResolverState :=
  let st := st.touch i
  let de := st.deferred.dylibs i
  if de.action = .deferred then
    let handle := E.dlopen de.soPath
    let de := if handle = 0 then { de with handle := 0 } else { de with handle := handle, action := .map }
    { st with deferred := { st.deferred with dylibs := Function.update st.deferred.dylibs i de } }
  else st

def completeBind (E : Env) (st : ResolverState) (db : DeferredBind) : ResolverState :=
  let i := (db.libOrdinal - 1).toNat
  let st := st.touch i
  let de := st.deferred.dylibs i
  if de.handle = 0 then st
  else
    let lookup := linuxLookupName db.symName 256
    let addr := lookupMapped E de.handle lookup
    let addr := if addr = 0 then E.dlsym rtldDefault lookup else addr
    if addr = 0 then st
    else
      let (t,st) := bindCtor E db.symName addr db.addend st
      st.write db.gotSlot (t.addr E)

def completeDeferred (E : Env) (st : ResolverState) : ResolverState :=
  if st.deferred.resolved then st
  else
    let st := { st with deferred := { st.deferred with resolved := true } }
    let st := (List.range st.deferred.ndylibs).foldl (openDeferred E) st
    st.deferred.binds.foldl (completeBind E) st

end Machismo.Resolver

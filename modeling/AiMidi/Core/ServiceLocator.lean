import AiMidi.Lib.Bytes
import AiMidi.Lib.Transition
import Mathlib.Logic.Function.Basic

/-!
# `AiMidi.Core.ServiceLocator`: the service locator and its production bindings

A `ServiceLocator` maps interfaces to factories. `registerMusicTheory` binds the interfaces of
the music theory module that have no factory yet. Four of its factories are closures over the
address of the locator they are registered in, and resolve the dependencies of their engine
there when they are called.

A memory gives the locator at each address, if one lives there. Copying a locator copies its
factories, the captured addresses included. Reading through the address of a destroyed locator
is undefined behaviour (`danglingLocator`). A locator that was moved from is empty.

What a caller binds is a factory without dependencies: `α` are the services that such factories
make.
-/

set_option autoImplicit false

namespace AiMidi.Core

open AiMidi.Lib

/-- The interfaces of the music theory module, and any others. -/
inductive Interface where
  | scaleProvider | chordEngine | bassEngine | harmonyEngine | drumEngine | pianoEngine
  | humanizationEngine | midiRenderer | promptInterpreter | styleDetection | blueprintGenerator
  | timelinePlanner | arrangementPlanner | instrumentMapper | modulationEngine
  | counterpointEngine | reharmonizeEngine
  | other (name : Bytes)
  deriving DecidableEq, Repr

/-- A service, with the services that were handed to it. -/
inductive Service (α : Type) where
  /-- What the factory of a caller makes. -/
  | given (a : α)
  /-- The implementation of an interface that depends on nothing. -/
  | make (i : Interface)
  | makeHarmonyEngine (scales : Service α) (chords : Option (Service α))
  | makeModulationEngine (scales : Service α)
  | makeCounterpointEngine (scales : Service α)
  | makeReharmonizeEngine (scales : Service α) (chords harmony : Option (Service α))

/-- The scale provider that was handed to an engine. -/
def Service.scales {α : Type} : Service α → Option (Service α)
  | .makeHarmonyEngine scales _       => some scales
  | .makeModulationEngine scales      => some scales
  | .makeCounterpointEngine scales    => some scales
  | .makeReharmonizeEngine scales _ _ => some scales
  | _                                 => none

/-- A factory of an interface. The last four are closures over the address of a locator. -/
inductive Factory (ι α : Type) : Interface → Type where
  | given {i : Interface} (a : α) : Factory ι α i
  | make {i : Interface} : Factory ι α i
  | harmony (loc : ι) : Factory ι α .harmonyEngine
  | modulation (loc : ι) : Factory ι α .modulationEngine
  | counterpoint (loc : ι) : Factory ι α .counterpointEngine
  | reharmonize (loc : ι) : Factory ι α .reharmonizeEngine

/-- The address that a factory has captured. -/
def Factory.loc {ι α : Type} {i : Interface} : Factory ι α i → Option ι
  | .given _          => none
  | .make             => none
  | .harmony loc      => some loc
  | .modulation loc   => some loc
  | .counterpoint loc => some loc
  | .reharmonize loc  => some loc

/-- A locator: the factory of each interface. -/
abbrev ServiceLocator (ι α : Type) := (i : Interface) → Option (Factory ι α i)

/-- The locators that live at each address. -/
abbrev Memory (ι α : Type) := ι → Option (ServiceLocator ι α)

/-- Why no service is resolved. -/
inductive ResolveError where
  | unregistered (i : Interface)
  | danglingLocator
  deriving DecidableEq, Repr

section

variable {ι α : Type}

/-! ### The container

A factory may have captured the address of a locator. Resolving through it needs the memory, which
is passed as a function from addresses to locators. -/

namespace ServiceLocator

/-- `bind`: the implementation replaces whatever the interface was bound to. -/
def bind (self : ServiceLocator ι α) (i : Interface) (a : α) : ServiceLocator ι α :=
  Function.update self i (some (.given a))

/-- `clear`, and the locator of the default constructor. -/
def empty : ServiceLocator ι α := fun _ => none

/-- `it->second` of a bound interface. -/
def find (self : ServiceLocator ι α) (i : Interface) : Except ResolveError (Factory ι α i) :=
  match self i with
  | some factory => .ok factory
  | none         => .error (.unregistered i)

/-- `resolve`, for an interface whose factories capture nothing. -/
def resolvePlain (self : ServiceLocator ι α) (i : Interface) :
    Except ResolveError (Service α) := do
  match ← self.find i with
  | .given a => .ok (.given a)
  | _        => .ok (.make i)

/-- The chord engine where one is bound. -/
def resolveChords (self : ServiceLocator ι α) : Except ResolveError (Option (Service α)) :=
  if (self .chordEngine).isSome then some <$> self.resolvePlain .chordEngine else .ok none

/-- The factory of the harmony engine, on the captured locator. -/
def makeHarmony (loc : ServiceLocator ι α) : Except ResolveError (Service α) := do
  let scales ← loc.resolvePlain .scaleProvider
  let chords ← loc.resolveChords
  .ok (.makeHarmonyEngine scales chords)

/-- The call of a harmony factory. `deref` reads the locator at an address. -/
def runHarmony (deref : ι → Except ResolveError (ServiceLocator ι α)) :
    Factory ι α .harmonyEngine → Except ResolveError (Service α)
  | .given a     => .ok (.given a)
  | .make        => .ok (.make .harmonyEngine)
  | .harmony loc => deref loc >>= makeHarmony

/-- The harmony engine where one is bound. -/
def resolveHarmony (deref : ι → Except ResolveError (ServiceLocator ι α))
    (self : ServiceLocator ι α) : Except ResolveError (Option (Service α)) :=
  match self .harmonyEngine with
  | some factory => some <$> runHarmony deref factory
  | none         => .ok none

/-- The factory of the reharmonize engine, on the captured locator. -/
def makeReharmonize (deref : ι → Except ResolveError (ServiceLocator ι α))
    (loc : ServiceLocator ι α) : Except ResolveError (Service α) := do
  let scales ← loc.resolvePlain .scaleProvider
  let chords ← loc.resolveChords
  let harmony ← loc.resolveHarmony deref
  .ok (.makeReharmonizeEngine scales chords harmony)

/-- The call of a factory. -/
def runFactory (deref : ι → Except ResolveError (ServiceLocator ι α)) {i : Interface} :
    Factory ι α i → Except ResolveError (Service α)
  | .given a          => .ok (.given a)
  | .make             => .ok (.make i)
  | .harmony loc      => deref loc >>= makeHarmony
  | .modulation loc   => deref loc >>= fun loc =>
      .makeModulationEngine <$> loc.resolvePlain .scaleProvider
  | .counterpoint loc => deref loc >>= fun loc =>
      .makeCounterpointEngine <$> loc.resolvePlain .scaleProvider
  | .reharmonize loc  => deref loc >>= makeReharmonize deref

/-- `resolve`, where `deref` reads the locator at an address. -/
def resolveWith (deref : ι → Except ResolveError (ServiceLocator ι α))
    (self : ServiceLocator ι α) (i : Interface) : Except ResolveError (Service α) :=
  self.find i >>= runFactory deref

end ServiceLocator

/-! ### The memory

A memory may have no locator at an address, and reading there is an error of its own. -/

/-- Reading through an address. -/
def Memory.deref (mem : Memory ι α) (loc : ι) : Except ResolveError (ServiceLocator ι α) :=
  match mem loc with
  | some self => .ok self
  | none      => .error .danglingLocator

/-- `resolve` on the locator at an address. -/
def Memory.resolve (mem : Memory ι α) (loc : ι) (i : Interface) :
    Except ResolveError (Service α) :=
  mem.deref loc >>= fun self => self.resolveWith mem.deref i

/-- What `register_music_theory` binds to an interface in the locator at `loc`. -/
def musicTheoryFactory (loc : ι) : (i : Interface) → Option (Factory ι α i)
  | .harmonyEngine      => some (.harmony loc)
  | .modulationEngine   => some (.modulation loc)
  | .counterpointEngine => some (.counterpoint loc)
  | .reharmonizeEngine  => some (.reharmonize loc)
  | .other _            => none
  | _                   => some .make

/-- `register_music_theory`: an interface that is bound keeps its factory. -/
def registerMusicTheory (loc : ι) (self : ServiceLocator ι α) : ServiceLocator ι α :=
  fun i => if (self i).isSome then self i else musicTheoryFactory loc i

/-! ### Programs over several locators

The programs construct, copy, move, bind, register, clear and destroy locators. Objects are told
apart by their addresses, as the captured ones are. -/

/-- An operation on locators, which are given by their addresses. -/
inductive LocatorAction (ι α : Type) where
  | construct (loc : ι)
  | destroy (loc : ι)
  | bind (loc : ι) (i : Interface) (a : α)
  | clear (loc : ι)
  | registerMusicTheory (loc : ι)
  /-- The copy constructor, or the copy assignment where a locator lives already. -/
  | copy (loc src : ι)
  /-- The move constructor or assignment. -/
  | move (loc src : ι)

variable [DecidableEq ι]

/-- The locator at an address is replaced. -/
def Memory.set (mem : Memory ι α) (loc : ι) (self : Option (ServiceLocator ι α)) : Memory ι α :=
  Function.update mem loc self

/-- The effect of an operation. -/
inductive LocatorStep : Memory ι α → LocatorAction ι α → Memory ι α → Prop where
  | construct {mem : Memory ι α} {loc : ι} (h : mem loc = none) :
      LocatorStep mem (.construct loc) (mem.set loc (some .empty))
  | destroy {mem : Memory ι α} {loc : ι} {self : ServiceLocator ι α} (h : mem loc = some self) :
      LocatorStep mem (.destroy loc) (mem.set loc none)
  | bind {mem : Memory ι α} {loc : ι} {self : ServiceLocator ι α} {i : Interface} {a : α}
      (h : mem loc = some self) :
      LocatorStep mem (.bind loc i a) (mem.set loc (some (self.bind i a)))
  | clear {mem : Memory ι α} {loc : ι} {self : ServiceLocator ι α} (h : mem loc = some self) :
      LocatorStep mem (.clear loc) (mem.set loc (some .empty))
  | registerMusicTheory {mem : Memory ι α} {loc : ι} {self : ServiceLocator ι α}
      (h : mem loc = some self) :
      LocatorStep mem (.registerMusicTheory loc)
        (mem.set loc (some (Core.registerMusicTheory loc self)))
  | copy {mem : Memory ι α} {loc src : ι} {self : ServiceLocator ι α} (h : mem src = some self) :
      LocatorStep mem (.copy loc src) (mem.set loc (some self))
  | move {mem : Memory ι α} {loc src : ι} {self : ServiceLocator ι α} (h : mem src = some self)
      (hne : loc ≠ src) :
      LocatorStep mem (.move loc src) ((mem.set loc (some self)).set src (some .empty))

/-- Operations one after the other. -/
inductive LocatorSteps : Memory ι α → List (LocatorAction ι α) → Memory ι α → Prop where
  | nil {mem : Memory ι α} : LocatorSteps mem [] mem
  | cons {mem mem' mem'' : Memory ι α} {act : LocatorAction ι α} {acts : List (LocatorAction ι α)}
      (h : LocatorStep mem act mem') (hs : LocatorSteps mem' acts mem'') :
      LocatorSteps mem (act :: acts) mem''

/-- `make_production`, for a caller that takes the locator at `dest`. `return loc` moves the local
locator there from its own address and then destroys it, unless the compiler has put it at `dest`
from the start (`none`). -/
def makeProduction (dest : ι) : Option ι → List (LocatorAction ι α)
  | none     => [.construct dest, .registerMusicTheory dest]
  | some loc => [.construct loc, .registerMusicTheory loc, .move dest loc, .destroy loc]

/-- Programs over any number of locators, from no locator on. -/
def serviceLocators (ι α : Type) [DecidableEq ι] : System (Memory ι α) (LocatorAction ι α) where
  init mem := ∀ loc, mem loc = none
  step := LocatorStep

end

end AiMidi.Core

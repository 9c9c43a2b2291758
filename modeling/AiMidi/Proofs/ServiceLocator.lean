import AiMidi.Core.ServiceLocator

/-!
# `AiMidi.Proofs.ServiceLocator`: when a locator resolves from its own bindings

`ServiceLocator.own` reads every captured address as the locator itself: it is what the bindings
of a locator alone determine. A memory is `Isolated` when `resolve` agrees with it on every
locator. The factories of a copy keep the address of the locator they were registered in, so a
later change of either locator breaks this (`copy_not_isolated`).

The invariant is that every locator that a factory captured has the same bindings for what the
factory resolves as the locator that holds the factory (`Consistent`). A step that changes no
binding which such a factory reads elsewhere keeps it (`Consistent.step`).

`make_production` returns a local locator. Constructed in place it keeps the invariant
(`makeProduction_consistent`). Moved to the caller it is of no use for the engines with dependencies
(`makeProduction_dangling`).

`Consistent.set` says what replacing one locator asks of the others. A copy, a binding and the
registration of the module are cases of it, and `Consistent.clear` is the one for a locator that is
destroyed or moved away. What an engine was made with is read off the slots of its locator
(`own_scales`).
-/

set_option autoImplicit false

namespace AiMidi.Proofs.ServiceLocator

open AiMidi.Lib AiMidi.Core

section Container
variable {ι α : Type}

/-! ### Resolving from the own bindings

`resolve` follows captured addresses, and `own` does not. The two differ only where a factory reads
a binding at another locator, so the lemmas compare what is read. -/

/-- `resolve` with every captured address read as the locator itself. -/
def own (self : ServiceLocator ι α) (i : Interface) : Except ResolveError (Service α) :=
  self.resolveWith (fun _ => .ok self) i

/-- Every locator resolves from its own bindings alone. -/
def Isolated (mem : Memory ι α) : Prop :=
  ∀ loc self, mem loc = some self → ∀ i, mem.resolve loc i = own self i

/-- The interfaces that a factory with a captured locator resolves there. -/
def dependencies : Interface → List Interface
  | .harmonyEngine      => [.scaleProvider, .chordEngine]
  | .modulationEngine   => [.scaleProvider]
  | .counterpointEngine => [.scaleProvider]
  | .reharmonizeEngine  => [.scaleProvider, .chordEngine, .harmonyEngine]
  | _                   => []

/-- A factory of the locator resolves the interface `d` at the address `m`. -/
def Reads (self : ServiceLocator ι α) (d : Interface) (m : ι) : Prop :=
  ∃ i factory, self i = some factory ∧ factory.loc = some m ∧ d ∈ dependencies i

/-- Every address leads to a locator with the same factories for what is resolved there. -/
def ReadsOwn (deref : ι → Except ResolveError (ServiceLocator ι α))
    (self : ServiceLocator ι α) : Prop :=
  ∀ d m, Reads self d m → ∃ b, deref m = .ok b ∧ b d = self d

/-- A plain lookup reads nothing but its own slot. -/
theorem resolvePlain_congr {a b : ServiceLocator ι α} {i : Interface} (h : a i = b i) :
    a.resolvePlain i = b.resolvePlain i := by
  simp only [ServiceLocator.resolvePlain, ServiceLocator.find, h]

/-- The chord engine reads nothing but its own slot. -/
theorem resolveChords_congr {a b : ServiceLocator ι α}
    (h : a .chordEngine = b .chordEngine) : a.resolveChords = b.resolveChords := by
  simp only [ServiceLocator.resolveChords, h, resolvePlain_congr h]

/-- The harmony engine reads nothing but the slots of its two dependencies. -/
theorem makeHarmony_congr {a b : ServiceLocator ι α}
    (hscales : a .scaleProvider = b .scaleProvider) (hchords : a .chordEngine = b .chordEngine) :
    a.makeHarmony = b.makeHarmony := by
  simp only [ServiceLocator.makeHarmony, resolvePlain_congr hscales,
    resolveChords_congr hchords]

section
variable {deref : ι → Except ResolveError (ServiceLocator ι α)} {self : ServiceLocator ι α}

/-- Two interfaces that one factory reads at one address lead to one locator. -/
theorem ReadsOwn.find (h : ReadsOwn deref self) {i : Interface} {factory : Factory ι α i}
    {m : ι} (hi : self i = some factory) (hm : factory.loc = some m)
    (hscales : .scaleProvider ∈ dependencies i) :
    ∃ b, deref m = .ok b ∧ ∀ d ∈ dependencies i, b d = self d := by
  obtain ⟨b, hb, -⟩ := h .scaleProvider m ⟨i, factory, hi, hm, hscales⟩
  refine ⟨b, hb, fun d hd => ?_⟩
  obtain ⟨b', hb', heq⟩ := h d m ⟨i, factory, hi, hm, hd⟩
  cases hb.symm.trans hb'
  exact heq

/-- The harmony engine of the locator, wherever its factory was registered. -/
theorem runHarmony_eq_own (h : ReadsOwn deref self) {factory : Factory ι α .harmonyEngine}
    (hfactory : self .harmonyEngine = some factory) :
    ServiceLocator.runHarmony deref factory
      = ServiceLocator.runHarmony (fun _ => .ok self) factory := by
  cases factory with
  | given a => rfl
  | make => rfl
  | harmony loc =>
    obtain ⟨b, hb, heq⟩ := h.find hfactory rfl (by simp [dependencies])
    have hmake : b.makeHarmony = self.makeHarmony :=
      makeHarmony_congr (heq _ (by simp [dependencies])) (heq _ (by simp [dependencies]))
    simp only [ServiceLocator.runHarmony, hb]
    exact hmake

/-- A locator with the same dependencies builds the reharmonisation engine that this one builds from
its own bindings. -/
theorem makeReharmonize_eq_own (h : ReadsOwn deref self) {b : ServiceLocator ι α}
    (heq : ∀ d ∈ dependencies .reharmonizeEngine, b d = self d) :
    b.makeReharmonize deref = self.makeReharmonize (fun _ => .ok self) := by
  have hscales := resolvePlain_congr (heq .scaleProvider (by simp [dependencies]))
  have hchords := resolveChords_congr (heq .chordEngine (by simp [dependencies]))
  have hharmony : b.resolveHarmony deref = self.resolveHarmony (fun _ => .ok self) := by
    simp only [ServiceLocator.resolveHarmony, heq .harmonyEngine (by simp [dependencies])]
    cases hfactory : self .harmonyEngine with
    | none => rfl
    | some factory => simp only [runHarmony_eq_own h hfactory]
  simp only [ServiceLocator.makeReharmonize, hscales, hchords, hharmony]

/-- A locator whose factories find its own bindings at the captured addresses resolves from its
own bindings. -/
theorem resolveWith_eq_own (h : ReadsOwn deref self) (i : Interface) :
    self.resolveWith deref i = own self i := by
  rw [own, ServiceLocator.resolveWith, ServiceLocator.resolveWith, ServiceLocator.find]
  cases hi : self i with
  | none => rfl
  | some factory =>
    show ServiceLocator.runFactory deref factory
      = ServiceLocator.runFactory (fun _ => .ok self) factory
    -- A lambda reads its slots at the captured address, which holds the same bindings.
    cases factory with
    | given a => rfl
    | make => rfl
    | harmony loc => exact runHarmony_eq_own h hi
    | modulation loc =>
      obtain ⟨b, hb, heq⟩ := h.find hi rfl (by simp [dependencies])
      have hscales := resolvePlain_congr (heq .scaleProvider (by simp [dependencies]))
      simp only [ServiceLocator.runFactory, hb]
      exact congrArg (Service.makeModulationEngine <$> ·) hscales
    | counterpoint loc =>
      obtain ⟨b, hb, heq⟩ := h.find hi rfl (by simp [dependencies])
      have hscales := resolvePlain_congr (heq .scaleProvider (by simp [dependencies]))
      simp only [ServiceLocator.runFactory, hb]
      exact congrArg (Service.makeCounterpointEngine <$> ·) hscales
    | reharmonize loc =>
      obtain ⟨b, hb, heq⟩ := h.find hi rfl (by simp [dependencies])
      simp only [ServiceLocator.runFactory, hb]
      exact makeReharmonize_eq_own h heq

end

/-! ### A rebound scale provider

An engine is made with the scale provider of the locator that its factory reads. So the provider
that an engine shows tells which locator that was. -/

/-- A slot with an instance returns the instance. -/
theorem resolvePlain_of_given {self : ServiceLocator ι α} {i : Interface} {a : α}
    (h : self i = some (.given a)) : self.resolvePlain i = .ok (.given a) := by
  simp only [ServiceLocator.resolvePlain, ServiceLocator.find, h]
  rfl

/-- A slot that is set returns a service. -/
theorem resolvePlain_isOk {self : ServiceLocator ι α} {i : Interface}
    (h : (self i).isSome) : ∃ service, self.resolvePlain i = .ok service := by
  obtain ⟨factory, hfactory⟩ := Option.isSome_iff_exists.mp h
  simp only [ServiceLocator.resolvePlain, ServiceLocator.find, hfactory]
  cases factory <;> exact ⟨_, rfl⟩

/-- A chord engine is always returned, as the code falls back to its own. -/
theorem resolveChords_isOk (self : ServiceLocator ι α) :
    ∃ chords, self.resolveChords = .ok chords := by
  rw [ServiceLocator.resolveChords]
  split
  · rename_i h
    obtain ⟨service, hservice⟩ := resolvePlain_isOk h
    exact ⟨some service, by rw [hservice]; rfl⟩
  · exact ⟨none, rfl⟩

/-- With a scale provider bound, the harmony engine is resolved where it is bound. -/
theorem resolveHarmony_isOk {self : ServiceLocator ι α} {scales : Service α}
    (h : self.resolvePlain .scaleProvider = .ok scales) :
    ∃ harmony, self.resolveHarmony (fun _ => .ok self) = .ok harmony := by
  obtain ⟨chords, hchords⟩ := resolveChords_isOk self
  rw [ServiceLocator.resolveHarmony]
  cases self .harmonyEngine with
  | none => exact ⟨none, rfl⟩
  | some factory =>
    cases factory with
    | given a => exact ⟨_, rfl⟩
    | make => exact ⟨_, rfl⟩
    | harmony loc =>
      refine ⟨some (.makeHarmonyEngine scales chords), ?_⟩
      show some <$> self.makeHarmony = _
      rw [ServiceLocator.makeHarmony, h, hchords]
      rfl

/-- An engine whose factory captured a locator is made with the own scale provider. -/
theorem own_scales {self : ServiceLocator ι α} {scales : Service α}
    (h : self.resolvePlain .scaleProvider = .ok scales) {i : Interface}
    {factory : Factory ι α i} {m : ι} (hi : self i = some factory)
    (hm : factory.loc = some m) :
    ∃ service, own self i = .ok service ∧ service.scales = some scales := by
  obtain ⟨chords, hchords⟩ := resolveChords_isOk self
  obtain ⟨harmony, hharmony⟩ := resolveHarmony_isOk h
  rw [own, ServiceLocator.resolveWith, ServiceLocator.find, hi]
  -- Every lambda of the module asks for the scale provider.
  cases factory with
  | given a => cases hm
  | make => cases hm
  | harmony loc =>
    refine ⟨.makeHarmonyEngine scales chords, ?_, rfl⟩
    show self.makeHarmony = _
    rw [ServiceLocator.makeHarmony, h, hchords]
    rfl
  | modulation loc =>
    refine ⟨.makeModulationEngine scales, ?_, rfl⟩
    show Service.makeModulationEngine <$> self.resolvePlain .scaleProvider = _
    rw [h]
    rfl
  | counterpoint loc =>
    refine ⟨.makeCounterpointEngine scales, ?_, rfl⟩
    show Service.makeCounterpointEngine <$> self.resolvePlain .scaleProvider = _
    rw [h]
    rfl
  | reharmonize loc =>
    refine ⟨.makeReharmonizeEngine scales chords harmony, ?_, rfl⟩
    show self.makeReharmonize (fun _ => .ok self) = _
    rw [ServiceLocator.makeReharmonize, h, hchords, hharmony]
    rfl

end Container

section Programs
variable {ι α : Type}

/-! ### The invariant

The invariant compares the slots that a factory reads at the captured address with the slots of its
own locator. It says nothing about slots that no factory reads. -/

/-- Every factory finds, at the address it captured, the bindings of the locator that holds it,
for all that it resolves there. -/
structure Consistent (mem : Memory ι α) : Prop where
  agree : ∀ loc self, mem loc = some self → ∀ d m, Reads self d m →
    ∃ b, mem m = some b ∧ b d = self d
  bound : ∀ loc self, mem loc = some self → ∀ d m, Reads self d m → (self d).isSome

/-- Consistent memory is isolated: no locator reads the slots of another. -/
theorem Consistent.isolated {mem : Memory ι α} (h : Consistent mem) : Isolated mem := by
  intro loc self hself i
  have hreads : ReadsOwn mem.deref self := by
    intro d m hdm
    obtain ⟨b, hb, heq⟩ := h.agree loc self hself d m hdm
    exact ⟨b, by rw [Memory.deref, hb], heq⟩
  rw [← resolveWith_eq_own hreads i, Memory.resolve, Memory.deref, hself]
  rfl

/-! ### What an operation changes

An operation writes one locator. What it may break are the factories of others that read there, and
its own factories that read elsewhere. -/

/-- No other locator holds a factory that reads `d` at `loc`. -/
def NotRead (mem : Memory ι α) (loc : ι) (d : Interface) : Prop :=
  ∀ l ≠ loc, ∀ self, mem l = some self → ¬ Reads self d loc

/-- An empty locator has no lambda, so it reads no memory. -/
@[simp] theorem not_reads_empty (d : Interface) (m : ι) :
    ¬ Reads (ServiceLocator.empty : ServiceLocator ι α) d m := by
  rintro ⟨i, factory, hi, -⟩
  cases hi

/-- A bound slot holds the bound instance. -/
theorem bind_self (self : ServiceLocator ι α) (i : Interface) (a : α) :
    self.bind i a i = some (.given a) := Function.update_self ..

/-- A binding leaves the other slots as they are. -/
theorem bind_of_ne (self : ServiceLocator ι α) {i d : Interface} (h : d ≠ i) (a : α) :
    self.bind i a d = self d := Function.update_of_ne h ..

/-- A factory that a caller binds captures nothing. -/
theorem Reads.of_bind {self : ServiceLocator ι α} {i d : Interface} {a : α} {m : ι}
    (h : Reads (self.bind i a) d m) : Reads self d m := by
  obtain ⟨j, factory, hj, hm, hd⟩ := h
  by_cases hji : j = i
  · subst hji
    rw [bind_self] at hj
    cases hj
    cases hm
  · rw [bind_of_ne self hji] at hj
    exact ⟨j, factory, hj, hm, hd⟩

/-- The registration of the music theory keeps a slot that is already set. -/
theorem registerMusicTheory_of_isSome {loc : ι} {self : ServiceLocator ι α} {d : Interface}
    (h : (self d).isSome) : registerMusicTheory loc self d = self d := if_pos h

/-- What the factories read is an interface of the module. -/
theorem registerMusicTheory_bound {loc : ι} {self : ServiceLocator ι α} {d i : Interface}
    (h : d ∈ dependencies i) : (registerMusicTheory loc self d).isSome := by
  have hfactory : (musicTheoryFactory loc d : Option (Factory ι α d)).isSome := by
    cases i <;> simp [dependencies] at h <;> rcases h with rfl | rfl | rfl <;> rfl
  rw [registerMusicTheory]
  split
  · assumption
  · exact hfactory

/-- A factory of a registered locator was there before, or it captured the locator itself. -/
theorem Reads.of_registerMusicTheory {loc : ι} {self : ServiceLocator ι α} {d : Interface} {m : ι}
    (h : Reads (registerMusicTheory loc self) d m) : Reads self d m ∨ m = loc := by
  obtain ⟨i, factory, hi, hm, hd⟩ := h
  rw [registerMusicTheory] at hi
  split at hi
  · exact Or.inl ⟨i, factory, hi, hm, hd⟩
  · right
    cases i <;> cases hi <;> cases hm <;> rfl

variable [DecidableEq ι]

/-- The memory of a written locator is what was written. -/
@[simp] theorem set_self (mem : Memory ι α) (loc : ι) (self : Option (ServiceLocator ι α)) :
    mem.set loc self loc = self := Function.update_self ..

/-- A write leaves the other locators as they are. -/
theorem set_of_ne (mem : Memory ι α) {loc l : ι} (h : l ≠ loc)
    (self : Option (ServiceLocator ι α)) : mem.set loc self l = mem l := Function.update_of_ne h ..

/-- Replacing a locator keeps the invariant when the factories of the others find there what
they found before, and its own find their bindings elsewhere. -/
theorem Consistent.set {mem : Memory ι α} (h : Consistent mem) {loc : ι}
    {b : ServiceLocator ι α}
    (hothers : ∀ l ≠ loc, ∀ self, mem l = some self → ∀ d, Reads self d loc → b d = self d)
    (hown : ∀ m ≠ loc, ∀ d, Reads b d m → ∃ b', mem m = some b' ∧ b' d = b d)
    (hbound : ∀ d m, Reads b d m → (b d).isSome) : Consistent (mem.set loc (some b)) where
  agree l self hself d m hdm := by
    -- The written locator reads itself, or it reads another that is unchanged.
    by_cases hl : l = loc
    · subst hl
      rw [set_self] at hself
      cases hself
      by_cases hm : m = l
      · exact ⟨b, by rw [hm, set_self], rfl⟩
      · obtain ⟨b', hb', heq⟩ := hown m hm d hdm
        exact ⟨b', by rw [set_of_ne mem hm, hb'], heq⟩
    -- Another locator reads the written one, or one that is unchanged.
    · rw [set_of_ne mem hl] at hself
      by_cases hm : m = loc
      · subst hm
        exact ⟨b, set_self .., hothers l hl self hself d hdm⟩
      · obtain ⟨b', hb', heq⟩ := h.agree l self hself d m hdm
        exact ⟨b', by rw [set_of_ne mem hm, hb'], heq⟩
  bound l self hself d m hdm := by
    by_cases hl : l = loc
    · subst hl
      rw [set_self] at hself
      cases hself
      exact hbound d m hdm
    · rw [set_of_ne mem hl] at hself
      exact h.bound l self hself d m hdm

/-- A locator at whose address no other factory reads may be cleared. -/
theorem Consistent.clear {mem : Memory ι α} (h : Consistent mem) {loc : ι}
    (hread : ∀ d, NotRead mem loc d) : Consistent (mem.set loc (some .empty)) :=
  h.set (fun l hl self hself d hd => absurd hd (hread d l hl self hself))
    (fun m _ d hd => absurd hd (not_reads_empty d m))
    (fun d m hd => absurd hd (not_reads_empty d m))

/-- Such a locator may be destroyed. -/
theorem Consistent.destroy {mem : Memory ι α} (h : Consistent mem) {loc : ι}
    (hread : ∀ d, NotRead mem loc d) : Consistent (mem.set loc none) where
  agree l self hself d m hdm := by
    by_cases hl : l = loc
    · rw [hl, set_self] at hself
      cases hself
    · rw [set_of_ne mem hl] at hself
      -- No lambda reads the locator that is destroyed.
      have hm : m ≠ loc := by
        rintro rfl
        exact hread d l hl self hself hdm
      obtain ⟨b, hb, heq⟩ := h.agree l self hself d m hdm
      exact ⟨b, by rw [set_of_ne mem hm, hb], heq⟩
  bound l self hself d m hdm := by
    by_cases hl : l = loc
    · rw [hl, set_self] at hself
      cases hself
    · rw [set_of_ne mem hl] at hself
      exact h.bound l self hself d m hdm

/-- A locator may be overwritten by one that has the same bindings for all that the others
read. -/
theorem Consistent.copy {mem : Memory ι α} (h : Consistent mem) {loc src : ι}
    {b : ServiceLocator ι α} (hsrc : mem src = some b)
    (hothers : ∀ l ≠ loc, ∀ self, mem l = some self → ∀ d, Reads self d loc → b d = self d) :
    Consistent (mem.set loc (some b)) :=
  h.set hothers (fun m _ d hd => h.agree src b hsrc d m hd)
    (fun d m hd => h.bound src b hsrc d m hd)

/-- A binding keeps memory consistent when no other locator reads the slot through the bound one. -/
theorem Consistent.bind {mem : Memory ι α} (h : Consistent mem) {loc : ι}
    {self : ServiceLocator ι α} (hself : mem loc = some self) {i : Interface} {a : α}
    (hread : NotRead mem loc i) (hown : ∀ m, Reads (self.bind i a) i m → m = loc) :
    Consistent (mem.set loc (some (self.bind i a))) := by
  apply h.set
  -- The bound slot is read by no other locator, so its new instance is seen by none.
  · intro l hl b hb d hd
    have hdi : d ≠ i := by
      rintro rfl
      exact hread l hl b hb hd
    obtain ⟨b', hb', heq⟩ := h.agree l b hb d loc hd
    cases hb'.symm.trans hself
    rw [bind_of_ne self hdi, heq]
  · intro m hm d hd
    have hdi : d ≠ i := by
      rintro rfl
      exact hm (hown m hd)
    rw [bind_of_ne self hdi]
    exact h.agree loc self hself d m hd.of_bind
  · intro d m hd
    by_cases hdi : d = i
    · subst hdi
      rw [bind_self]
      rfl
    · rw [bind_of_ne self hdi]
      exact h.bound loc self hself d m hd.of_bind

/-- The module may be registered at any time: where a factory reads, all is bound. -/
theorem Consistent.registerMusicTheory {mem : Memory ι α} (h : Consistent mem) {loc : ι}
    {self : ServiceLocator ι α} (hself : mem loc = some self) :
    Consistent (mem.set loc (some (Core.registerMusicTheory loc self))) := by
  apply h.set
  · intro l hl b hb d hd
    obtain ⟨b', hb', heq⟩ := h.agree l b hb d loc hd
    cases hb'.symm.trans hself
    rw [registerMusicTheory_of_isSome (heq ▸ h.bound l b hb d loc hd), heq]
  · intro m hm d hd
    have hd' := hd.of_registerMusicTheory.resolve_right hm
    rw [registerMusicTheory_of_isSome (h.bound loc self hself d m hd')]
    exact h.agree loc self hself d m hd'
  · rintro d m ⟨i, factory, -, -, hd⟩
    exact registerMusicTheory_bound hd

/-! ### Programs

A program is a run of operations. The condition is asked in front of each of them, and it allows
every operation that changes nothing others read. -/

/-- The condition on an operation: it changes no binding of a locator that a factory in another
locator reads, and rebinds nothing that a factory of its own locator reads elsewhere. -/
def Allowed (mem : Memory ι α) : LocatorAction ι α → Prop
  | .construct _           => True
  | .registerMusicTheory _ => True
  | .destroy loc           => ∀ d, NotRead mem loc d
  | .clear loc             => ∀ d, NotRead mem loc d
  | .bind loc i a          => NotRead mem loc i ∧
      ∀ self, mem loc = some self → ∀ m, Reads (self.bind i a) i m → m = loc
  | .copy loc src          => ∀ b, mem src = some b →
      ∀ l ≠ loc, ∀ self, mem l = some self → ∀ d, Reads self d loc → b d = self d
  | .move loc src          => (∀ b, mem src = some b →
      ∀ l ≠ loc, ∀ self, mem l = some self → ∀ d, Reads self d loc → b d = self d) ∧
      ∀ d, NotRead (mem.set loc (mem src)) src d

/-- Every allowed operation keeps memory consistent. -/
theorem Consistent.step {mem mem' : Memory ι α} {act : LocatorAction ι α}
    (h : Consistent mem) (hallowed : Allowed mem act) (hstep : LocatorStep mem act mem') :
    Consistent mem' := by
  cases hstep with
  | @construct loc hnone =>
    -- Nothing is captured where nothing lives.
    apply h.clear
    intro d l hl self hself hd
    obtain ⟨b, hb, -⟩ := h.agree l self hself d loc hd
    rw [hnone] at hb
    cases hb
  | destroy hself => exact h.destroy hallowed
  | bind hself => exact h.bind hself hallowed.1 (hallowed.2 _ hself)
  | clear hself => exact h.clear hallowed
  | registerMusicTheory hself => exact h.registerMusicTheory hself
  | copy hsrc => exact h.copy hsrc (hallowed _ hsrc)
  | move hsrc hne =>
    apply (h.copy hsrc (hallowed.1 _ hsrc)).clear
    have hread := hallowed.2
    rwa [hsrc] at hread

/-- Memory is consistent after every run of allowed operations. -/
theorem consistent_of_run {past : List (LocatorAction ι α × Memory ι α)} {mem : Memory ι α}
    (h : System.Run ((serviceLocators ι α).restrict Allowed) past mem) : Consistent mem := by
  apply h.restrict_invariant (I := Consistent)
  · intro mem hinit
    constructor <;> intro loc self hself <;> rw [hinit loc] at hself <;> cases hself
  · intro mem act mem' hI hallowed hstep
    exact hI.step hallowed hstep

/-- In a program whose operations all meet the condition every locator resolves from its own
bindings alone. A further such operation changes nothing for the locators whose bindings it
leaves, and a scale provider that it binds is seen by the engines of its locator. -/
theorem isolated_of_allowed {past : List (LocatorAction ι α × Memory ι α)} {mem : Memory ι α}
    (h : System.Run ((serviceLocators ι α).restrict Allowed) past mem) :
    Isolated mem ∧ ∀ act mem', Allowed mem act → LocatorStep mem act mem' →
      (∀ loc, mem' loc = mem loc → ∀ i, mem'.resolve loc i = mem.resolve loc i) ∧
      (∀ loc a self i factory m, act = .bind loc .scaleProvider a → mem' loc = some self →
        self i = some factory → factory.loc = some m →
        ∃ service, mem'.resolve loc i = .ok service ∧ service.scales = some (.given a)) := by
  have hcons := consistent_of_run h
  refine ⟨hcons.isolated, fun act mem' hallowed hstep => ⟨?_, ?_⟩⟩
  -- Without a write at its own address a locator reads the same bindings as before.
  · intro loc hloc i
    have hiso' := (hcons.step hallowed hstep).isolated
    cases hself : mem loc with
    | none =>
      rw [Memory.resolve, Memory.resolve, Memory.deref, Memory.deref, hloc, hself]
      rfl
    | some self =>
      rw [hiso' loc self (hloc.trans hself) i, hcons.isolated loc self hself i]
  -- After the binding the locator's own lambdas find the new provider.
  · rintro loc a self i factory m rfl hself hi hm
    rw [(hcons.step hallowed hstep).isolated loc self hself i]
    apply own_scales (resolvePlain_of_given ?_) hi hm
    cases hstep
    rw [set_self] at hself
    cases hself
    exact bind_self ..

end Programs

/-! ### Production locators

`make_production` returns its local locator by value. When the return is elided the caller holds the
registered locator, and otherwise one whose factories read the local that is gone. -/

section Production

variable {ι α : Type} [DecidableEq ι] {mem mem' : Memory ι α}

/-- A production locator that is constructed in place keeps the invariant. -/
theorem makeProduction_consistent (h : Consistent mem) {dest : ι}
    (hsteps : LocatorSteps mem (makeProduction dest none) mem') :
    Consistent mem' ∧ mem' dest = some (registerMusicTheory dest .empty) := by
  cases hsteps with
  | cons hconstruct hsteps =>
    cases hsteps with
    | cons hregister hsteps =>
      cases hsteps
      -- The construction and the registration are both allowed without a condition.
      have hempty : Consistent _ :=
        h.step (show Allowed mem (.construct dest) from trivial) hconstruct
      refine ⟨hempty.step (show Allowed _ (.registerMusicTheory dest) from trivial) hregister, ?_⟩
      cases hconstruct
      cases hregister with
      | registerMusicTheory hself =>
        rw [set_self] at hself
        cases hself
        exact set_self ..

/-- A production locator that is moved to its caller has lost the locator that its factories read:
no engine with a dependency is resolved. -/
theorem makeProduction_dangling {dest loc : ι}
    (hsteps : LocatorSteps mem (makeProduction dest (some loc)) mem') {i : Interface}
    (hi : dependencies i ≠ []) : mem'.resolve dest i = .error .danglingLocator := by
  have hmoved : mem' dest = some (registerMusicTheory loc .empty) ∧ mem' loc = none := by
    -- The four operations of the function: construct, register, move, destroy.
    cases hsteps with
    | cons hconstruct hsteps =>
      cases hsteps with
      | cons hregister hsteps =>
        cases hsteps with
        | cons hmove hsteps =>
          cases hsteps with
          | cons hdestroy hsteps =>
            cases hsteps
            cases hconstruct
            cases hregister with
            | registerMusicTheory hself =>
              rw [set_self] at hself
              cases hself
              cases hmove with
              | move hsrc hne =>
                rw [set_self] at hsrc
                cases hsrc
                cases hdestroy
                exact ⟨by rw [set_of_ne _ hne, set_of_ne _ hne, set_self], set_self ..⟩
  obtain ⟨hdest, hloc⟩ := hmoved
  have hderef : mem'.deref loc = .error .danglingLocator := by
    rw [Memory.deref, hloc]
  have hself : mem'.deref dest = .ok (registerMusicTheory loc .empty) := by
    rw [Memory.deref, hdest]
  rw [Memory.resolve, hself]
  -- Every interface with dependencies is made by a lambda that reads the old address.
  show (registerMusicTheory loc ServiceLocator.empty).resolveWith mem'.deref i = _
  cases i with
  | harmonyEngine | modulationEngine | counterpointEngine | reharmonizeEngine =>
    show mem'.deref loc >>= _ = _
    rw [hderef]
    rfl
  | _ => exact absurd rfl hi

end Production

/-! ### Two programs

One program copies a production locator and then rebinds what no factory reads. The other rebinds
the scale provider after the copy, which the factories of the copy read. -/

/-- The memory with an empty locator at address 0. -/
def emptyMemory : Memory Nat Unit := Memory.set (fun _ => none) 0 (some .empty)

/-- The memory with a production locator at address 0. -/
def productionMemory : Memory Nat Unit :=
  emptyMemory.set 0 (some (registerMusicTheory 0 .empty))

/-- The production locator is copied to address 1. -/
def copiedMemory : Memory Nat Unit :=
  productionMemory.set 1 (some (registerMusicTheory 0 .empty))

/-- The drums of the original are rebound. -/
def reboundMemory : Memory Nat Unit :=
  copiedMemory.set 0 (some ((registerMusicTheory 0 ServiceLocator.empty).bind .drumEngine ()))

/-- One locator, registered for production, is reached by allowed operations. -/
theorem productionMemory_run :
    System.Run ((serviceLocators Nat Unit).restrict Allowed)
      [(.registerMusicTheory 0, productionMemory), (.construct 0, emptyMemory)]
      productionMemory := by
  apply System.Run.snoc (s := emptyMemory)
  · apply System.Run.snoc (s := fun _ => none)
    · exact .start fun _ => rfl
    · exact ⟨trivial, LocatorStep.construct rfl⟩
  · exact ⟨trivial, LocatorStep.registerMusicTheory (set_self ..)⟩

/-- The factories of a production locator read at its own address. -/
theorem address_of_reads {d : Interface} {m : Nat}
    (h : Reads (registerMusicTheory 0 (ServiceLocator.empty : ServiceLocator Nat Unit)) d m) :
    m = 0 :=
  h.of_registerMusicTheory.resolve_left (not_reads_empty d m)

/-- No factory of the module depends on the drums. -/
theorem drumEngine_not_dependency (i : Interface) : .drumEngine ∉ dependencies i := by
  cases i <;> simp [dependencies]

/-- The production locator may be copied to a second address, which nothing reads. -/
theorem allowed_copy : Allowed productionMemory (.copy 1 0) := by
  intro b _ l hl self hself d hd
  by_cases hl0 : l = 0
  · subst hl0
    cases hself
    exact absurd (address_of_reads hd) (by decide)
  · rw [productionMemory, set_of_ne _ hl0, emptyMemory, set_of_ne _ hl0] at hself
    cases hself

/-- The copy of the production locator at a second address. -/
theorem copy_step : LocatorStep productionMemory (.copy 1 0) copiedMemory := .copy (set_self ..)

/-- The copied memory is reached by allowed operations. -/
theorem copiedMemory_run : System.Run ((serviceLocators Nat Unit).restrict Allowed)
    [(.copy 1 0, copiedMemory), (.registerMusicTheory 0, productionMemory),
      (.construct 0, emptyMemory)] copiedMemory :=
  productionMemory_run.snoc ⟨allowed_copy, copy_step⟩

/-- The drums of the original may be rebound after the copy, as no factory depends on them. -/
theorem allowed_rebind : Allowed copiedMemory (.bind 0 .drumEngine ()) := by
  constructor
  · rintro l - self - ⟨i, -, -, -, hd⟩
    exact drumEngine_not_dependency i hd
  · rintro self - m ⟨i, -, -, -, hd⟩
    exact absurd hd (drumEngine_not_dependency i)

/-- The rebinding of the drums of the original. -/
theorem rebind_step : LocatorStep copiedMemory (.bind 0 .drumEngine ()) reboundMemory :=
  .bind (show copiedMemory 0 = some (registerMusicTheory 0 .empty) from rfl)

/-- The copy may be destroyed, as nothing reads it. -/
theorem allowed_destroy : Allowed reboundMemory (.destroy 1) := by
  intro d l hl self hself hd
  by_cases hl0 : l = 0
  · subst hl0
    cases hself
    exact absurd (address_of_reads hd.of_bind) (by decide)
  · rw [reboundMemory, set_of_ne _ hl0, copiedMemory, set_of_ne _ hl, productionMemory,
      set_of_ne _ hl0, emptyMemory, set_of_ne _ hl0] at hself
    cases hself

/-- Once the copy is gone nothing else reads the scale provider of the original. -/
theorem allowed_scaleProvider :
    Allowed (reboundMemory.set 1 none) (.bind 0 .scaleProvider ()) := by
  constructor
  · intro l hl self hself
    by_cases hl1 : l = 1
    · subst hl1
      cases hself
    · rw [set_of_ne _ hl1, reboundMemory, set_of_ne _ hl, copiedMemory, set_of_ne _ hl1,
        productionMemory, set_of_ne _ hl, emptyMemory, set_of_ne _ hl] at hself
      cases hself
  · intro self hself m hd
    cases hself
    exact address_of_reads hd.of_bind.of_bind

/-- A production locator is copied, and the drums of the original are rebound: both resolve from
their own bindings, and the copy resolves what it did before. Then the copy is destroyed and the
scale provider of the original rebound: the harmony engine of the original is made with the new
one. -/
theorem isolated_of_allowed_copied :
    Isolated copiedMemory ∧ (∀ i, reboundMemory.resolve 1 i = copiedMemory.resolve 1 i) ∧
      ∃ mem, LocatorStep (reboundMemory.set 1 none) (.bind 0 .scaleProvider ()) mem ∧
        ∃ service, mem.resolve 0 .harmonyEngine = .ok service ∧
          service.scales = some (.given ()) := by
  obtain ⟨hisolated, hfurther⟩ := isolated_of_allowed copiedMemory_run
  refine ⟨hisolated, (hfurther _ _ allowed_rebind rebind_step).1 1 rfl, ?_⟩
  have hrun := (copiedMemory_run.snoc ⟨allowed_rebind, rebind_step⟩).snoc
    ⟨allowed_destroy,
      .destroy (show reboundMemory 1 = some (registerMusicTheory 0 .empty) from rfl)⟩
  have hstep : LocatorStep (reboundMemory.set 1 none) (.bind 0 .scaleProvider ()) _ :=
    .bind (show reboundMemory.set 1 none 0
      = some ((registerMusicTheory 0 .empty).bind .drumEngine ()) from rfl)
  exact ⟨_, hstep, ((isolated_of_allowed hrun).2 _ _ allowed_scaleProvider hstep).2 0 () _
    .harmonyEngine (.harmony 0) 0 rfl (set_self ..) rfl rfl⟩

/-- A production locator is copied, then its scale provider is rebound: the harmony engine of the
copy is made with the new one. -/
theorem copy_not_isolated :
    ∃ past mem, System.Run (serviceLocators Nat Unit) past mem ∧
      past.map Prod.fst = [.bind 0 .scaleProvider (), .copy 1 0, .registerMusicTheory 0,
        .construct 0] ∧
      ¬ Isolated mem := by
  have h0 : copiedMemory 0 = some (registerMusicTheory 0 .empty) := rfl
  have hbind : LocatorStep _ (.bind 0 .scaleProvider ()) _ := .bind h0
  refine ⟨_, _, (productionMemory_run.of_restrict.snoc copy_step).snoc hbind, rfl, ?_⟩
  intro h
  -- Both read the chord engine of locator 0, but only locator 0 has the new scale provider.
  cases h 1 (registerMusicTheory 0 .empty) rfl .harmonyEngine

end AiMidi.Proofs.ServiceLocator

/-
The scopes of compiled code are well nested.

A path through code shows which choices with a scope it goes into, what it
cuts and what it calls. A body is read apart from any code: a way through it
is the goals and cuts that are met, with the conditions that are tested on the
way. Compiling lays the ways of a body out as the paths of its code, one for
each and in order, and only adds scopes: each if-then(-else) opens one of its
own, and the condition, if it can be got through, ends with the one cut that
commits to it.

Continuations are compiled before what stands in front of them and are shared
by every branch, so nothing is said of the code of a part alone. What the
induction carries is the piece of a path that belongs to the part, with the
range of numbers that its scopes are taken from: pieces that follow one
another have disjoint ranges, whichever of them was compiled first.
-/
import LogicMachine.Proofs.Indexing
import Mathlib.Data.List.Forall2

namespace LogicMachine

-- ================================================== paths

/-- What a path through code meets. -/
inductive Event where
  /-- A choice with a scope. -/
  | opened (scope : Nat)
  | cut (scope : Option Nat)
  | call (target : Target) (args : List Term)

namespace Event

/-- The scope that is opened. -/
def opened? : Event → Option Nat
  | .opened scope => some scope
  | _ => none

/-- Whether this cuts the clause. -/
def cutsClause : Event → Bool
  | .cut none => true
  | _ => false

end Event

namespace Code

/-- What going into a choice shows. -/
def opening : Option Nat → List Event
  | none => []
  | some scope => [.opened scope]

mutual

/-- The paths of the code, from its root to where it ends, branches in
order. -/
def paths : Code → List (List Event)
  | .succeed | .fail => [[]]
  | .choice scope branches => (pathsAll branches).map (opening scope ++ ·)
  | .cut scope next => (paths next).map (.cut scope :: ·)
  | .call target args next => (paths next).map (.call target args :: ·)
  | .noop next => paths next

def pathsAll : List Code → List (List Event)
  | [] => []
  | code :: codes => paths code ++ pathsAll codes

end

theorem pathsAll_eq (codes : List Code) : pathsAll codes = codes.flatMap paths := by
  induction codes with
  | nil => rfl
  | cons code codes ih => rw [pathsAll, ih, List.flatMap_cons]

theorem paths_choice (scope : Option Nat) (branches : List Code) :
    (choice scope branches).paths = (branches.flatMap paths).map (opening scope ++ ·) := by
  rw [paths, pathsAll_eq]

theorem paths_join (codes : List Code) : (join codes).paths = codes.flatMap paths := by
  unfold join
  split
  · simp
  · rw [paths_choice]
    simp [opening]

end Code

-- ================================================== ways

/-- What a way through a body meets. -/
inductive Mark where
  | goal (name : String) (args : List Term)
  | cut
  /-- The condition of an if-then(-else), got through by a way of its own. -/
  | test (hasCut : Bool) (condition : List Mark)
  /-- The alternative of an if-then-else. -/
  | otherwise

namespace Mark

def isCut : Mark → Bool
  | .cut => true
  | _ => false

end Mark

namespace Body

/-- The ways through a body, in order. -/
def ways : Body → List (List Mark)
  | .succeed => [[]]
  | .cut => [[.cut]]
  | .later t => [[.goal "call" [t]]]
  | .goal name args => [[.goal name args]]
  | .uncallable _ => []
  | .both first rest => first.ways.flatMap fun way => rest.ways.map (way ++ ·)
  | .either left right => left.ways ++ right.ways
  | .ifThen test consequent =>
    test.ways.flatMap fun way => consequent.ways.map (.test test.hasCut way :: ·)
  | .ifThenElse test consequent alternative =>
    (test.ways.flatMap fun way => consequent.ways.map (.test test.hasCut way :: ·))
      ++ alternative.ways.map (.otherwise :: ·)

theorem hasCut_of_mem_ways {body : Body} {way : List Mark} (h : way ∈ body.ways)
    (hcut : Mark.cut ∈ way) : body.hasCut = true := by
  induction body generalizing way with
  | cut => rfl
  | succeed | later _ | goal _ _ | uncallable _ => simp_all [ways]
  | both first rest ihf ihr =>
    simp only [ways, List.mem_flatMap, List.mem_map] at h
    obtain ⟨w, hw, w', hw', rfl⟩ := h
    rcases List.mem_append.1 hcut with hcut | hcut
    · simp [hasCut, ihf hw hcut]
    · simp [hasCut, ihr hw' hcut]
  | either left right ihl ihr =>
    rcases List.mem_append.1 h with h | h
    · simp [hasCut, ihl h hcut]
    · simp [hasCut, ihr h hcut]
  | ifThen test consequent _ ihc =>
    simp only [ways, List.mem_flatMap, List.mem_map] at h
    obtain ⟨w, hw, w', hw', rfl⟩ := h
    simp [hasCut, ihc hw' (by simpa using hcut)]
  | ifThenElse test consequent alternative _ ihc iha =>
    simp only [ways, List.mem_append, List.mem_flatMap, List.mem_map] at h
    rcases h with ⟨w, hw, w', hw', rfl⟩ | ⟨w', hw', rfl⟩
    · simp [hasCut, ihc hw' (by simpa using hcut)]
    · simp [hasCut, iha hw' (by simpa using hcut)]

end Body

-- ================================================== ways and paths

/-- The path goes the way, where `scope` is what a cut outside every condition
of the way cuts to. A condition is left by a cut to the scope of its own
choice, and that is the only one on the path; a cut within it cuts to a scope
which is opened next to that choice if there is any such cut. -/
inductive Traces : Option Nat → List Mark → List Event → Prop
  | nil {scope : Option Nat} : Traces scope [] []
  | goal {scope : Option Nat} {way : List Mark} {path : List Event} {name : String}
      {args : List Term} {index : Nat} (rest : Traces scope way path) :
      Traces scope (.goal name args :: way) (.call (.table index ⟨name, args.length⟩) args :: path)
  | cut {scope : Option Nat} {way : List Mark} {path : List Event} (rest : Traces scope way path) :
      Traces scope (.cut :: way) (.cut scope :: path)
  | test {scope : Option Nat} {own inner : Nat} {hasCut : Bool} {tested way : List Mark}
      {within path : List Event} (condition : Traces (some inner) tested within)
      (rest : Traces scope way path) (uncut : .cut (some own) ∉ within)
      (once : .cut (some own) ∉ path) :
      Traces scope (.test hasCut tested :: way)
        (.opened own :: (Code.opening (if hasCut then some inner else none)
          ++ (within ++ .cut (some own) :: path)))
  | otherwise {scope : Option Nat} {own : Nat} {way : List Mark} {path : List Event}
      (rest : Traces scope way path) :
      Traces scope (.otherwise :: way) (.opened own :: path)

namespace Traces

variable {scope : Option Nat} {way way' : List Mark} {path path' : List Event}

/-- One path after another, which cuts to no scope of the first. -/
theorem append (h : Traces scope way path) (h' : Traces scope way' path')
    (hnew : ∀ s, .opened s ∈ path → .cut (some s) ∉ path') :
    Traces scope (way ++ way') (path ++ path') := by
  induction h with
  | nil => exact h'
  | goal _ ih => exact .goal (ih h' fun s hs => hnew s (List.mem_cons_of_mem _ hs))
  | cut _ ih => exact .cut (ih h' fun s hs => hnew s (List.mem_cons_of_mem _ hs))
  | @test _ own _ _ _ way within path hc _ huncut honce _ ih =>
    have hrest := ih h' fun s hs => hnew s (by simp [hs])
    have hnot : .cut (some own) ∉ path ++ path' := by
      intro hmem
      rcases List.mem_append.1 hmem with hmem | hmem
      · exact honce hmem
      · exact hnew own List.mem_cons_self hmem
    simpa [List.append_assoc] using Traces.test hc hrest huncut hnot
  | otherwise _ ih => exact .otherwise (ih h' fun s hs => hnew s (List.mem_cons_of_mem _ hs))

/-- The cuts of the clause are those outside every condition. -/
theorem countP_cutsClause (h : Traces scope way path) :
    path.countP Event.cutsClause = if scope = none then way.countP Mark.isCut else 0 := by
  induction h with
  | nil => simp
  | goal _ ih => simpa [Event.cutsClause, Mark.isCut] using ih
  | @cut scope _ _ _ ih =>
    cases scope <;> simpa [List.countP_cons, Event.cutsClause, Mark.isCut] using ih
  | @test _ _ inner hasCut _ _ _ _ _ _ _ _ ihc ih =>
    have hopen :
        (Code.opening (if hasCut then some inner else none)).countP Event.cutsClause = 0 := by
      cases hasCut <;> rfl
    simp only [List.countP_cons, List.countP_append, hopen, ihc, ih]
    simp [Event.cutsClause, Mark.isCut]
  | otherwise _ ih => simpa [Event.cutsClause, Mark.isCut] using ih

end Traces

-- ================================================== scopes on a path

/-- The scopes that a path opens. -/
def openedOn (path : List Event) : List Nat := path.filterMap Event.opened?

theorem mem_openedOn {path : List Event} {s : Nat} : s ∈ openedOn path ↔ .opened s ∈ path := by
  simp only [openedOn, List.mem_filterMap]
  constructor
  · rintro ⟨e, he, hs⟩
    cases e <;> cases hs
    exact he
  · exact fun h => ⟨_, h, rfl⟩

@[simp] theorem openedOn_opened (s : Nat) (path : List Event) :
    openedOn (.opened s :: path) = s :: openedOn path := rfl

@[simp] theorem openedOn_cut (scope : Option Nat) (path : List Event) :
    openedOn (.cut scope :: path) = openedOn path := rfl

@[simp] theorem openedOn_call (target : Target) (args : List Term) (path : List Event) :
    openedOn (.call target args :: path) = openedOn path := rfl

@[simp] theorem openedOn_nil : openedOn [] = [] := rfl

@[simp] theorem openedOn_append (path path' : List Event) :
    openedOn (path ++ path') = openedOn path ++ openedOn path' :=
  List.filterMap_append

/-- A cut with a scope names one that was opened before it, or one of
`known`. -/
def CutsOpened (known : Nat → Prop) : List Event → Prop
  | [] => True
  | .opened s :: path => CutsOpened (fun i => i = s ∨ known i) path
  | .cut (some s) :: path => known s ∧ CutsOpened known path
  | .cut none :: path | .call _ _ :: path => CutsOpened known path

namespace CutsOpened

variable {known known' : Nat → Prop} {path path' : List Event}

theorem mono (h : CutsOpened known path) (hk : ∀ s, known s → known' s) :
    CutsOpened known' path := by
  induction path generalizing known known' with
  | nil => trivial
  | cons e path ih =>
    match e with
    | .opened s => exact ih h fun i hi => hi.imp_right (hk i)
    | .cut (some s) => exact ⟨hk s h.1, ih h.2 hk⟩
    | .cut none | .call _ _ => exact ih h hk

theorem append_iff : CutsOpened known (path ++ path') ↔
    CutsOpened known path ∧ CutsOpened (fun s => s ∈ openedOn path ∨ known s) path' := by
  induction path generalizing known with
  | nil => simp [CutsOpened]
  | cons e path ih =>
    match e with
    | .opened s =>
      simp only [List.cons_append, CutsOpened, ih, openedOn_opened, List.mem_cons]
      simp only [or_assoc, or_left_comm]
    | .cut (some s) => simp only [List.cons_append, CutsOpened, ih, openedOn_cut, and_assoc]
    | .cut none | .call _ _ =>
      simp only [List.cons_append, CutsOpened, ih, openedOn_cut, openedOn_call]

/-- What a cut on the path can name. -/
theorem named {before after : List Event} {s : Nat}
    (h : CutsOpened known (before ++ .cut (some s) :: after)) : s ∈ openedOn before ∨ known s :=
  (append_iff.1 h).2.1

theorem mem_openedOn_or_known (h : CutsOpened known path) {s : Nat} (hs : .cut (some s) ∈ path) :
    s ∈ openedOn path ∨ known s := by
  obtain ⟨before, after, rfl⟩ := List.append_of_mem hs
  exact h.named.imp_left fun hmem => by simp [hmem]

end CutsOpened

-- ================================================== pieces of paths

/-- The piece of a path that belongs to a part of a body, which goes the way
through it. Its scopes are numbered from `first` on and below `last`; a cut of
the part itself cuts to `scope`. -/
structure Piece (scope : Option Nat) (first last : Nat) (way : List Mark) (path : List Event) :
    Prop where
  traces : Traces scope way path
  within : ∀ s ∈ openedOn path, first ≤ s ∧ s < last
  distinct : (openedOn path).Nodup
  cuts : CutsOpened (fun s => scope = some s ∧ .cut ∈ way) path

namespace Piece

variable {scope : Option Nat} {first middle last : Nat} {way way' : List Mark}
  {path path' : List Event}

theorem nil : Piece scope first first [] [] where
  traces := .nil
  within _ hs := absurd hs List.not_mem_nil
  distinct := List.nodup_nil
  cuts := trivial

theorem cut : Piece scope first first [.cut] [.cut scope] where
  traces := .cut .nil
  within _ hs := absurd hs List.not_mem_nil
  distinct := List.nodup_nil
  cuts := by cases scope <;> simp [CutsOpened]

theorem goal {name : String} {args : List Term} {index : Nat} :
    Piece scope first first [.goal name args] [.call (.table index ⟨name, args.length⟩) args] where
  traces := .goal .nil
  within _ hs := absurd hs List.not_mem_nil
  distinct := List.nodup_nil
  cuts := trivial

theorem mono (h : Piece scope first last way path) {first' last' : Nat} (hf : first' ≤ first)
    (hl : last ≤ last') : Piece scope first' last' way path where
  traces := h.traces
  within s hs := ⟨hf.trans (h.within s hs).1, (h.within s hs).2.trans_le hl⟩
  distinct := h.distinct
  cuts := h.cuts

/-- A cut in a piece is to a scope of the piece or to that of the part. -/
theorem opened_of_cut (h : Piece scope first last way path) {s : Nat}
    (hs : .cut (some s) ∈ path) : (first ≤ s ∧ s < last) ∨ scope = some s := by
  rcases h.cuts.mem_openedOn_or_known hs with hs | hs
  · exact .inl (h.within s hs)
  · exact .inr hs.1

/-- One piece in front of another that was compiled before it. -/
theorem append (h : Piece scope middle last way path) (h' : Piece scope first middle way' path')
    (hscope : ∀ s ∈ scope, s < first) (hle : first ≤ middle) (hle' : middle ≤ last) :
    Piece scope first last (way ++ way') (path ++ path') where
  traces := by
    refine h.traces.append h'.traces fun s hs hcut => ?_
    have hs := h.within s (mem_openedOn.2 hs)
    rcases h'.opened_of_cut hcut with hcut | hcut
    · omega
    · have := hscope s hcut
      omega
  within s hs := by
    rw [openedOn_append, List.mem_append] at hs
    rcases hs with hs | hs
    · have := h.within s hs
      omega
    · have := h'.within s hs
      omega
  distinct := by
    rw [openedOn_append]
    refine List.Nodup.append h.distinct h'.distinct fun s hs hs' => ?_
    have := h.within s hs
    have := h'.within s hs'
    omega
  cuts := by
    refine CutsOpened.append_iff.2 ⟨h.cuts.mono fun s hs => ⟨hs.1, by simp [hs.2]⟩, ?_⟩
    exact h'.cuts.mono fun s hs => .inr ⟨hs.1, by simp [hs.2]⟩

/-- The condition of an if-then(-else), the cut to its choice, and the
consequent. -/
theorem test {hasCut : Bool} (hcut : .cut ∈ way → hasCut = true)
    (ht : Piece (some middle) (middle + 1) last way path)
    (hc : Piece scope (first + 1) middle way' path') (hscope : ∀ s ∈ scope, s < first)
    (hle : first < middle) (hle' : middle < last) :
    Piece scope first last (.test hasCut way :: way')
      (.opened first :: (Code.opening (if hasCut then some middle else none)
        ++ (path ++ .cut (some first) :: path'))) where
  traces := by
    refine .test ht.traces hc.traces (fun h => ?_) fun h => ?_
    · rcases ht.opened_of_cut h with h | h
      · omega
      · cases h
        omega
    · rcases hc.opened_of_cut h with h | h
      · omega
      · exact (hscope first h).false
  within s hs := by
    have hopen : s ∈ openedOn (Code.opening (if hasCut then some middle else none)) →
        s = middle := by
      cases hasCut <;> simp [Code.opening]
    simp only [openedOn_opened, openedOn_append, openedOn_cut, List.mem_cons, List.mem_append] at hs
    rcases hs with rfl | hs | hs | hs
    · omega
    · have := hopen hs
      omega
    · have := ht.within s hs
      omega
    · have := hc.within s hs
      omega
  distinct := by
    have hfirst : first ∉ openedOn path ++ openedOn path' := by
      intro h
      rcases List.mem_append.1 h with h | h
      · have := (ht.within first h).1
        omega
      · have := (hc.within first h).1
        omega
    have hmiddle : middle ∉ openedOn path ++ openedOn path' := by
      intro h
      rcases List.mem_append.1 h with h | h
      · have := (ht.within middle h).1
        omega
      · have := (hc.within middle h).2
        omega
    have hdistinct : (openedOn path ++ openedOn path').Nodup := by
      refine List.Nodup.append ht.distinct hc.distinct fun s hs hs' => ?_
      have := ht.within s hs
      have := hc.within s hs'
      omega
    cases hasCut with
    | false => simpa [Code.opening] using ⟨by simpa using hfirst, hdistinct⟩
    | true =>
      have hne : first ≠ middle := hle.ne
      simpa [Code.opening, hne] using
        ⟨by simpa using hfirst, by simpa using hmiddle, hdistinct⟩
  cuts := by
    have hpath : CutsOpened
        (fun s => s ∈ openedOn (Code.opening (if hasCut then some middle else none))
          ∨ s = first ∨ scope = some s ∧ .cut ∈ Mark.test hasCut way :: way') path := by
      refine ht.cuts.mono fun s hs => .inl ?_
      cases hs.1
      simp [hcut hs.2, Code.opening]
    refine CutsOpened.append_iff.2 ⟨by cases hasCut <;> trivial, ?_⟩
    refine CutsOpened.append_iff.2 ⟨hpath, ?_, ?_⟩
    · exact .inr (.inr (.inl rfl))
    · exact hc.cuts.mono fun s hs => .inr (.inr (.inr ⟨hs.1, by simp [hs.2]⟩))

/-- The alternative of an if-then-else. -/
theorem otherwise (h : Piece scope middle last way path) (hle : first < middle)
    (hle' : middle ≤ last) : Piece scope first last (.otherwise :: way) (.opened first :: path) where
  traces := .otherwise h.traces
  within s hs := by
    rcases List.mem_cons.1 hs with rfl | hs
    · omega
    · have := h.within s hs
      omega
  distinct := by
    refine List.nodup_cons.2 ⟨fun hs => ?_, h.distinct⟩
    have := (h.within first hs).1
    omega
  cuts := h.cuts.mono fun s hs => .inr ⟨hs.1, by simp [hs.2]⟩

end Piece

-- ================================================== laying out

/-- The paths are pieces that go the ways, one for each and in order, each
followed by every path of what comes next. -/
def Lays (scope : Option Nat) (first last : Nat) (ways : List (List Mark)) (next : Code)
    (paths : List (List Event)) : Prop :=
  ∃ pieces, List.Forall₂ (Piece scope first last) ways pieces
    ∧ paths = pieces.flatMap fun piece => next.paths.map (piece ++ ·)

namespace Lays

variable {scope : Option Nat} {first middle last : Nat} {ways ways' : List (List Mark)}
  {next : Code} {paths paths' : List (List Event)}

theorem single {way : List Mark} {piece : List Event} (h : Piece scope first last way piece) :
    Lays scope first last [way] next (next.paths.map (piece ++ ·)) :=
  ⟨[piece], .cons h .nil, by simp⟩

theorem mono (h : Lays scope first last ways next paths) {first' last' : Nat} (hf : first' ≤ first)
    (hl : last ≤ last') : Lays scope first' last' ways next paths := by
  obtain ⟨pieces, hpieces, rfl⟩ := h
  exact ⟨pieces, hpieces.imp fun _ _ hp => hp.mono hf hl, rfl⟩

theorem both {codes : List Code} (h : Lays scope middle last ways (Code.join codes) paths)
    (h' : Lays scope first middle ways' next (codes.flatMap Code.paths))
    (hscope : ∀ s ∈ scope, s < first) (hle : first ≤ middle) (hle' : middle ≤ last) :
    Lays scope first last (ways.flatMap fun way => ways'.map (way ++ ·)) next paths := by
  obtain ⟨pieces, hpieces, rfl⟩ := h
  obtain ⟨pieces', hpieces', hcodes⟩ := h'
  refine ⟨pieces.flatMap fun piece => pieces'.map (piece ++ ·), ?_, ?_⟩
  · exact List.rel_flatMap hpieces fun _ _ hp => List.rel_map
      (fun _ _ hp' => hp.append hp' hscope hle hle') hpieces'
  · rw [Code.paths_join, hcodes]
    simp [List.flatMap_assoc, List.map_flatMap, List.flatMap_map, Function.comp_def]

theorem either (h : Lays scope middle last ways' next paths')
    (h' : Lays scope first middle ways next paths) (hle : first ≤ middle) (hle' : middle ≤ last) :
    Lays scope first last (ways ++ ways') next (paths ++ paths') := by
  obtain ⟨pieces, hpieces, rfl⟩ := h'.mono le_rfl hle'
  obtain ⟨pieces', hpieces', rfl⟩ := h.mono hle le_rfl
  exact ⟨pieces ++ pieces', List.rel_append hpieces hpieces', by simp⟩

/-- What the choice of an if-then(-else) has for its condition. -/
theorem test {hasCut : Bool} {codes codes' : List Code}
    (hcut : ∀ way ∈ ways, .cut ∈ way → hasCut = true)
    (ht : Lays (some middle) (middle + 1) last ways (.cut (some first) (Code.join codes'))
      (codes.flatMap Code.paths))
    (hc : Lays scope (first + 1) middle ways' next (codes'.flatMap Code.paths))
    (hscope : ∀ s ∈ scope, s < first) (hle : first < middle) (hle' : middle < last) :
    Lays scope first last (ways.flatMap fun way => ways'.map (.test hasCut way :: ·)) next
      ((if hasCut then Code.choice (some middle) [Code.join codes] else Code.join codes).paths.map
        (.opened first :: ·)) := by
  obtain ⟨pieces, hpieces, htest⟩ := ht
  obtain ⟨pieces', hpieces', hconsequent⟩ := hc
  refine ⟨pieces.flatMap fun piece => pieces'.map fun piece' => .opened first
    :: (Code.opening (if hasCut then some middle else none)
      ++ (piece ++ .cut (some first) :: piece')), ?_, ?_⟩
  · refine List.rel_flatMap ((List.forall₂_and_left _ _).2 ⟨hcut, hpieces⟩) fun _ _ hp => ?_
    exact List.rel_map (fun _ _ hp' => Piece.test hp.1 hp.2 hp' hscope hle hle') hpieces'
  · have hpaths : (if hasCut then Code.choice (some middle) [Code.join codes]
        else Code.join codes).paths
        = (codes.flatMap Code.paths).map
          (Code.opening (if hasCut then some middle else none) ++ ·) := by
      cases hasCut
      · simp [Code.paths_join, Code.opening]
      · simp [Code.paths_choice, Code.paths_join]
    rw [hpaths, htest, Code.paths, Code.paths_join, hconsequent]
    simp [List.flatMap_assoc, List.map_flatMap, List.flatMap_map, Function.comp_def]

theorem otherwise (h : Lays scope middle last ways next paths) (hle : first < middle)
    (hle' : middle ≤ last) :
    Lays scope first last (ways.map (.otherwise :: ·)) next (paths.map (.opened first :: ·)) := by
  obtain ⟨pieces, hpieces, rfl⟩ := h
  refine ⟨pieces.map (.opened first :: ·), ?_, ?_⟩
  · exact List.rel_map (fun _ _ hp => hp.otherwise hle hle') hpieces
  · simp [List.map_flatMap, List.flatMap_map, Function.comp_def]

end Lays

-- ================================================== compiling

namespace Body

theorem bind_ok {α β : Type} {work : Compile α} {next : α → Compile β} {n n'' : Nat}
    {db db'' : Database} {b : β} (h : (work >>= next) n db = .ok (b, n'') db'') :
    ∃ a n' db', work n db = .ok (a, n') db' ∧ next a n' db' = .ok (b, n'') db'' := by
  obtain ⟨⟨a, n'⟩, db', hwork, hnext⟩ := Store.bind_ok h
  exact ⟨a, n', db', hwork, hnext⟩

theorem compileGoal_ok {name : String} {args : List Term} {next code : Code} {n n' : Nat}
    {db db' : Database} (h : compileGoal name args next n db = .ok (code, n') db') :
    n' = n ∧ ∃ index, code = .call (.table index ⟨name, args.length⟩) args next := by
  obtain ⟨index, n₁, db₁, htable, h⟩ := bind_ok h
  obtain ⟨i, db₂, -, htable⟩ := Store.bind_ok htable
  cases htable
  cases h
  exact ⟨rfl, index, rfl⟩

/-- A goal is laid out as a call. -/
theorem lays_goal {scope : Option Nat} {name : String} {args : List Term} {next code : Code}
    {n n' : Nat} {db db' : Database} (h : compileGoal name args next n db = .ok (code, n') db') :
    n ≤ n' ∧ Lays scope n n' [[.goal name args]] next code.paths := by
  obtain ⟨rfl, index, rfl⟩ := compileGoal_ok h
  exact ⟨le_rfl, .single .goal⟩

/-- The branches of a body lay its ways out, with scopes that are new. -/
theorem lays_branches {body : Body} {scope : Option Nat} {next : Code} {codes : List Code}
    {n n' : Nat} {db db' : Database} (hscope : ∀ s ∈ scope, s < n)
    (h : branches scope body next n db = .ok (codes, n') db') :
    n ≤ n' ∧ Lays scope n n' body.ways next (codes.flatMap Code.paths) := by
  induction body generalizing scope next codes n n' db db' with
  | succeed =>
    cases h
    have hlays : Lays scope n n [[]] next (next.paths.map ([] ++ ·)) := .single .nil
    exact ⟨le_rfl, by simpa [ways] using hlays⟩
  | cut =>
    cases h
    have hlays : Lays scope n n [[.cut]] next (next.paths.map ([.cut scope] ++ ·)) := .single .cut
    exact ⟨le_rfl, by simpa [ways, Code.paths] using hlays⟩
  | later t =>
    obtain ⟨code, n₁, db₁, hcode, h⟩ := bind_ok h
    cases h
    simpa [ways] using lays_goal hcode
  | goal name args =>
    obtain ⟨code, n₁, db₁, hcode, h⟩ := bind_ok h
    cases h
    simpa [ways] using lays_goal hcode
  | uncallable t => cases h
  | both first rest ihf ihr =>
    obtain ⟨codes₁, n₁, db₁, hrest, h⟩ := bind_ok h
    obtain ⟨codes₂, n₂, db₂, hfirst, h⟩ := bind_ok h
    cases h
    obtain ⟨hle, hr⟩ := ihr hscope hrest
    obtain ⟨hle', hf⟩ := ihf (fun s hs => (hscope s hs).trans_le hle) hfirst
    exact ⟨hle.trans hle', by simpa [ways, Code.paths_join] using hf.both hr hscope hle hle'⟩
  | either left right ihl ihr =>
    obtain ⟨codes₁, n₁, db₁, hleft, h⟩ := bind_ok h
    obtain ⟨codes₂, n₂, db₂, hright, h⟩ := bind_ok h
    cases h
    obtain ⟨hle, hl⟩ := ihl hscope hleft
    obtain ⟨hle', hr⟩ := ihr (fun s hs => (hscope s hs).trans_le hle) hright
    exact ⟨hle.trans hle', by simpa [ways, Code.paths_join] using hr.either hl hle hle'⟩
  | ifThen test consequent iht ihc =>
    obtain ⟨own, n₀, db₀, hown, h⟩ := bind_ok h
    cases hown
    obtain ⟨codes₁, n₁, db₁, hconsequent, h⟩ := bind_ok h
    obtain ⟨inner, n₂, db₂, hinner, h⟩ := bind_ok h
    cases hinner
    obtain ⟨codes₂, n₃, db₃, htest, h⟩ := bind_ok h
    cases h
    obtain ⟨hle, hc⟩ := ihc (fun s hs => Nat.lt_succ_of_lt (hscope s hs)) hconsequent
    obtain ⟨hle', ht⟩ := iht (fun s hs => by cases hs; omega) htest
    have hlays := Lays.test (fun _ hway => hasCut_of_mem_ways hway) ht hc hscope hle hle'
    refine ⟨by omega, ?_⟩
    simpa [ways, chooseCode, Code.paths_choice, Code.opening] using hlays
  | ifThenElse test consequent alternative iht ihc iha =>
    obtain ⟨own, n₀, db₀, hown, h⟩ := bind_ok h
    cases hown
    obtain ⟨codes₁, n₁, db₁, hconsequent, h⟩ := bind_ok h
    obtain ⟨inner, n₂, db₂, hinner, h⟩ := bind_ok h
    cases hinner
    obtain ⟨codes₂, n₃, db₃, htest, h⟩ := bind_ok h
    obtain ⟨codes₃, n₄, db₄, halternative, h⟩ := bind_ok h
    cases h
    obtain ⟨hle, hc⟩ := ihc (fun s hs => Nat.lt_succ_of_lt (hscope s hs)) hconsequent
    obtain ⟨hle', ht⟩ := iht (fun s hs => by cases hs; omega) htest
    have hlt : n < n₃ := by omega
    obtain ⟨hle'', ha⟩ := iha (fun s hs => (hscope s hs).trans hlt) halternative
    have hlays := Lays.test (fun _ hway => hasCut_of_mem_ways hway) ht hc hscope hle hle'
    obtain ⟨pieces, hpieces, hpaths⟩ := hlays.mono le_rfl hle''
    obtain ⟨pieces', hpieces', hpaths'⟩ := ha.otherwise hlt hle''
    refine ⟨by omega, pieces ++ pieces', List.rel_append hpieces hpieces', ?_⟩
    rw [List.flatMap_append, ← hpaths, ← hpaths']
    simp [chooseCode, Code.paths_choice, Code.paths_join, Code.opening]

end Body

namespace Clause

/-- A clause, or a goal, that was compiled. -/
inductive Compiled : Clause → Prop
  | clause {t : Term} {c : Clause} {db db' : Database} (h : compile t db = .ok c db') : Compiled c
  | goal {goal : Term} {template : Bool} {c : Clause} {db db' : Database}
    (h : ofGoal goal template db = .ok c db') : Compiled c

theorem assemble_code {head : Option Term} {body : Term} {names : List String} {db db' : Database}
    {c : Clause} (h : assemble head body names db = .ok c db') :
    ∃ db₁ db₂, (Body.ofTerm none c.body).compile .succeed db₁ = .ok c.code db₂ := by
  have hrest : ∀ (predicate : Option Predicate) (db : Database), (do
      let code ← (Body.ofTerm none body).compile .succeed
      let head := head.getD goalHead
      return (⟨← Database.freshClause, predicate, head, body, head.args, code, names⟩ : Clause))
        db = .ok c db' →
      ∃ db₁ db₂, (Body.ofTerm none c.body).compile .succeed db₁ = .ok c.code db₂ := by
    intro predicate db h
    obtain ⟨code, db₁, hcode, h⟩ := Store.bind_ok h
    obtain ⟨serial, db₂, -, h⟩ := Store.bind_ok h
    cases h
    exact ⟨db, db₁, hcode⟩
  cases head with
  | none => exact hrest none db h
  | some head =>
    unfold assemble at h
    cases hpredicate : Predicate.ofTerm head with
    | error e =>
      simp only [hpredicate] at h
      cases h
    | ok predicate =>
      simp only [hpredicate] at h
      exact hrest _ db h

/-- The code is that of the body. -/
theorem Compiled.code {c : Clause} (h : c.Compiled) :
    ∃ db db', (Body.ofTerm none c.body).compile .succeed db = .ok c.code db' := by
  cases h with
  | @clause t _ db _ h =>
    rw [compile_apply] at h
    generalize t.index { serial := db.nextTerm } = r at h
    cases hsplit : r.1.split ":-" with
    | some parts =>
      simp only [hsplit] at h
      exact assemble_code h
    | none =>
      simp only [hsplit] at h
      split at h
      · exact assemble_code h
      · exact assemble_code h
  | goal h =>
    unfold ofGoal at h
    split at h
    · exact assemble_code h
    · obtain ⟨_, _, -, h⟩ := Store.bind_ok h
      exact assemble_code h

end Clause

/-- How the scopes stand on a path of the code of a body, and the way through
the body that the path goes. -/
structure WellNested (way : List Mark) (path : List Event) : Prop where
  /-- No scope is opened twice. -/
  distinct : (openedOn path).Nodup
  /-- A cut with a scope has one that is open. -/
  opened_before : ∀ {before after : List Event} {s : Nat},
    path = before ++ .cut (some s) :: after → .opened s ∈ before
  /-- Each condition is left by a single cut, to its own choice, and a cut is
  one of the clause just if it is in no condition. -/
  traces : Traces none way path
  clause_cuts : path.countP Event.cutsClause = way.countP Mark.isCut

namespace Clause

/-- The paths of compiled code are the ways through the body that it is
compiled from, one for each and in order, with well nested scopes. -/
theorem Compiled.scopes_well_nested {c : Clause} (h : c.Compiled) :
    List.Forall₂ WellNested (Body.ofTerm none c.body).ways c.code.paths := by
  obtain ⟨db, db', hcode⟩ := h.code
  generalize c.code = code at hcode ⊢
  obtain ⟨⟨codes, n⟩, db'', hcodes, hcode⟩ := Store.bind_ok hcode
  cases hcode
  obtain ⟨-, pieces, hpieces, hpaths⟩ := Body.lays_branches (fun _ hs => by cases hs) hcodes
  have hpaths : (Code.join codes).paths = pieces := by
    simpa [Code.paths_join, Code.paths] using hpaths
  rw [hpaths]
  refine hpieces.imp fun way path hp => ?_
  constructor
  · exact hp.distinct
  · rintro before after s rfl
    rcases hp.cuts.named with hs | hs
    · exact mem_openedOn.1 hs
    · cases hs.1
  · exact hp.traces
  · exact hp.traces.countP_cutsClause

/-- `(p, ! -> q ; r), !` -/
def conditional : Term :=
  .build 0 "," [.build 0 ";" [.build 0 "->" [.build 0 "," [.atom "p", .atom "!"], .atom "q"],
    .atom "r"], .atom "!"]

def conditionalWays : List (List Mark) :=
  [[.test true [.goal "p" [], .cut], .goal "q" [], .cut], [.otherwise, .goal "r" [], .cut]]

/-- The condition has a cut, so that the choice of the if-then-else is followed
by one for the condition; the last cut is one of the clause. -/
def conditionalPaths : List (List Event) :=
  [[.opened 0, .opened 1, .call (.table 1 ⟨"p", 0⟩) [], .cut (some 1), .cut (some 0),
      .call (.table 0 ⟨"q", 0⟩) [], .cut none],
    [.opened 0, .call (.table 2 ⟨"r", 0⟩) [], .cut none]]

theorem scopes_well_nested_conditional : ∃ c db',
    ofGoal conditional true (Database.empty 1) = .ok c db' ∧ c.code.paths = conditionalPaths
      ∧ List.Forall₂ WellNested conditionalWays conditionalPaths := by
  have hread : match ofGoal conditional true (Database.empty 1) with
      | .ok c _ => (Body.ofTerm none c.body).ways = conditionalWays
          ∧ c.code.paths = conditionalPaths
      | .error _ _ => False := by cbv
  cases h : ofGoal conditional true (Database.empty 1) with
  | ok c db' =>
    rw [h] at hread
    obtain ⟨hways, hpaths⟩ := hread
    have hnested := (Compiled.goal h).scopes_well_nested
    rw [hways, hpaths] at hnested
    exact ⟨c, db', rfl, hpaths, hnested⟩
  | error e db' =>
    rw [h] at hread
    cases hread

end Clause

end LogicMachine

/-
Compiled code mentions what its source mentions.

Giving slots to the variables of a term leaves no variable without one.
After that, compiling only takes a body apart and puts its goals into
code, so that whatever the body mentions, and nothing else, is mentioned by
the code.
-/
import LogicMachine.Proofs.Store

namespace LogicMachine

-- ================================================== slots for variables

namespace Indexing

theorem slotFor_lt (v : Var) (s : Indexing) :
    s.vars.length ≤ (s.slotFor v).2.vars.length
      ∧ (s.slotFor v).1 < (s.slotFor v).2.vars.length := by
  unfold slotFor
  split
  · rename_i i hi
    exact ⟨le_rfl, (List.findIdx?_eq_some_iff_findIdx_eq.1 hi).1⟩
  · simp

end Indexing

namespace Term

/-- A plain term has no variable to give a slot. -/
theorem index_of_isPlain {t : Term} (h : t.isPlain = true) (s : Indexing) : t.index s = (t, s) := by
  cases t with
  | var v => cases v <;> first | rfl | simp [isPlain] at h
  | compound form name args =>
    cases form with
    | plain => simp [index]
    | template _ => simp [isPlain] at h
  | _ => simp_all [index, isPlain]

mutual

/-- Afterwards every variable is a slot that was given out. -/
theorem fits_index {w : World} : (t : Term) → (s : Indexing) → t.Fits w anyVars →
    s.vars.length ≤ (t.index s).2.vars.length
      ∧ (t.index s).1.Fits w (· < (t.index s).2.vars.length)
  | .var v, s, h => by
    rcases Term.fits_var.1 h with rfl | ⟨hn, -⟩
    · rw [index_of_isPlain rfl]
      exact ⟨le_rfl, fits_wildcard⟩
    · have hslot := s.slotFor_lt v
      cases v with
      | wildcard => exact absurd rfl hn
      | named n => exact ⟨hslot.1, fits_var.2 (.inr ⟨hn, hslot.2⟩)⟩
      | slot i n => exact ⟨hslot.1, fits_var.2 (.inr ⟨hn, hslot.2⟩)⟩
  | .compound .plain name args, s, h => by
    rw [index_of_isPlain rfl]
    exact ⟨le_rfl, h.of_isPlain rfl⟩
  | .compound (.template _) name args, s, h => by
    rw [index]
    have hargs := fitsAll_index args s (fits_compound.1 h).2
    exact ⟨hargs.1, fits_build hargs.2⟩
  | .ref cell name, s, h => by
    rw [index.eq_def]
    exact ⟨le_rfl, fits_ref.2 (fits_ref.1 h)⟩
  | .closure _ _ _ _, s, h => by
    rw [index.eq_def]
    exact ⟨le_rfl, fits_closure.2 (fits_closure.1 h)⟩
  | .atom _, s, _ | .number _, s, _ | .host _, s, _ | .thunk _, s, _ => by
    rw [index.eq_def]
    exact ⟨le_rfl, by simp⟩

theorem fitsAll_index {w : World} : (ts : List Term) → (s : Indexing) →
    (∀ t ∈ ts, t.Fits w anyVars) →
    s.vars.length ≤ (indexAll ts s).2.vars.length
      ∧ ∀ t ∈ (indexAll ts s).1, t.Fits w (· < (indexAll ts s).2.vars.length)
  | [], s, _ => by
    rw [indexAll]
    exact ⟨le_rfl, fun _ ht => absurd ht List.not_mem_nil⟩
  | t :: ts, s, h => by
    rw [indexAll]
    have h₁ := fits_index t s (h t List.mem_cons_self)
    have h₂ := fitsAll_index ts (t.index s).2 fun t' ht' => h t' (List.mem_cons_of_mem _ ht')
    refine ⟨h₁.1.trans h₂.1, fun t' ht' => ?_⟩
    rcases List.mem_cons.1 ht' with rfl | ht'
    · exact h₁.2.mono (.refl _) fun _ hi => hi.trans_le h₂.1
    · exact h₂.2 t' ht'

end

end Term

theorem Database.keeps_indexTerm {w : World} {t : Term} (h : t.Fits w anyVars) :
    Store.Keeps (indexTerm t) fun r => r.1.Fits w (· < r.2.length) := by
  refine .modifyGet fun db hdb => ⟨{ hdb with }, ?_⟩
  have hi := (Term.fits_index t { serial := db.nextTerm } h).2
  simpa using hi

theorem Database.keeps_indexTerm_of_isPlain {t : Term} (h : t.isPlain = true) :
    Store.Keeps (indexTerm t) fun r => r = (t, []) := by
  refine .modifyGet fun db hdb => ⟨{ hdb with }, ?_⟩
  simp [Term.index_of_isPlain h]

-- ================================================== bodies

/-- The terms in a body fit. -/
def Body.Fits (w : World) (vars : Nat → Prop) : Body → Prop
  | .succeed | .cut => True
  | .later t | .uncallable t => t.Fits w vars
  | .goal _ args => ∀ a ∈ args, a.Fits w vars
  | .both a b | .either a b | .ifThen a b => a.Fits w vars ∧ b.Fits w vars
  | .ifThenElse a b c => a.Fits w vars ∧ b.Fits w vars ∧ c.Fits w vars

namespace Body

variable {w : World} {vars : Nat → Prop}

/-- A term, read in a frame or in none, whose variables are `vars`. -/
inductive Sources (w : World) (vars : Nat → Prop) (t : Term) : Option FrameId → Prop
  | bare (h : t.Fits w vars) : Sources w vars t none
  | framed {home : FrameId} (hf : w.frame home) (h : t.Fits w (w.slotsOf home)) :
    Sources w vars t (some home)

theorem Sources.bindIn {t : Term} {frame : Option FrameId} (h : Sources w vars t frame) :
    (t.bindIn frame).Fits w vars := by
  cases h with
  | bare h => exact h
  | framed hf h => exact h.bindTo hf fun _ hi => hi

theorem Sources.args {form : Form} {name : String} {args : List Term} {frame : Option FrameId}
    (h : Sources w vars (.compound form name args) frame) : ∀ a ∈ args, Sources w vars a frame := by
  intro a ha
  cases h with
  | bare h => exact .bare ((Term.fits_compound.1 h).2 a ha)
  | framed hf h => exact .framed hf ((Term.fits_compound.1 h).2 a ha)

theorem Sources.closure {serial : Nat} {name : String} {args : List Term} {home : FrameId}
    {frame : Option FrameId} (h : Sources w vars (.closure serial name args home) frame) :
    ∀ a ∈ args, Sources w vars a (some home) := by
  intro a ha
  cases h with
  | bare h => exact .framed (Term.fits_closure.1 h).1 ((Term.fits_closure.1 h).2 a ha)
  | framed _ h => exact .framed (Term.fits_closure.1 h).1 ((Term.fits_closure.1 h).2 a ha)

mutual

theorem fits_ofTerm : (t : Term) → {frame : Option FrameId} → Sources w vars t frame →
    (ofTerm frame t).Fits w vars
  | .atom name, _, _ => by
    rw [ofTerm, ofAtom]
    split
    · trivial
    · split
      · trivial
      · exact fun _ ha => absurd ha List.not_mem_nil
  | .compound form name args, _, h => by
    rw [ofTerm]
    exact fits_ofCompound name args h.args
  | .closure _ name args _, _, h => by
    rw [ofTerm]
    exact fits_ofCompound name args h.closure
  | .var v, _, h => by
    rw [ofTerm]
    exact h.bindIn
  | .ref cell name, _, h => by
    rw [ofTerm]
    cases h with
    | bare h => exact Term.fits_ref.2 (Term.fits_ref.1 h)
    | framed _ h => exact Term.fits_ref.2 (Term.fits_ref.1 h)
  | .thunk _, _, _ => by
    rw [ofTerm]
    exact Term.fits_thunk
  | .number _, _, _ => by
    rw [ofTerm]
    exact Term.fits_number
  | .host _, _, _ => by
    rw [ofTerm]
    exact Term.fits_host

theorem fits_ofCompound : (name : String) → (args : List Term) → {frame : Option FrameId} →
    (∀ a ∈ args, Sources w vars a frame) → (ofCompound frame name args).Fits w vars
  | name, [left, right], frame, h => by
    have hl := fits_ofTerm left (h left (by simp))
    have hr := fits_ofTerm right (h right (by simp))
    rw [ofCompound]
    split
    · exact ⟨hl, hr⟩
    · split
      · exact ⟨hl, hr⟩
      · split
        · split
          · rename_i heq
            rw [heq] at hl
            exact ⟨hl.1, hl.2, hr⟩
          · exact ⟨hl, hr⟩
        · intro a ha
          simp only [List.mem_cons, List.not_mem_nil, or_false] at ha
          rcases ha with rfl | rfl
          · exact (h left (by simp)).bindIn
          · exact (h right (by simp)).bindIn
  | _, [], _, h | _, [_], _, h | _, _ :: _ :: _ :: _, _, h => by
    rw [ofCompound.eq_def]
    intro a ha
    obtain ⟨b, hb, rfl⟩ := List.mem_map.1 ha
    exact (h b hb).bindIn

end

-- ================================================== compiling

/-- Compiling keeps a database sound and answers code that fits. -/
def Compiles {α : Type} (work : Compile α) (post : α → Prop) : Prop :=
  ∀ scopes : Nat, Store.Keeps (work scopes) fun r => post r.1

theorem Compiles.bind {α β : Type} {work : Compile α} {next : α → Compile β} {post : α → Prop}
    {post' : β → Prop} (h : Compiles work post) (hn : ∀ a, post a → Compiles (next a) post') :
    Compiles (work >>= next) post' :=
  fun scopes => (h scopes).bind fun r hr => hn r.1 hr r.2

/-- What the first answers does not matter. -/
theorem Compiles.seq {α β : Type} {work : Compile α} {next : α → Compile β} {post' : β → Prop}
    (h : Compiles work fun _ => True) (hn : ∀ a, Compiles (next a) post') :
    Compiles (work >>= next) post' :=
  h.bind fun a _ => hn a

theorem Compiles.pure {α : Type} {a : α} {post : α → Prop} (h : post a) :
    Compiles (Pure.pure a) post :=
  fun _ => .pure h

theorem compiles_newScope : Compiles newScope fun _ => True := fun _ => .pure trivial

theorem compiles_goal {name : String} {args : List Term} {next : Code}
    (ha : ∀ a ∈ args, a.Fits w vars) (hn : next.Fits w vars) :
    Compiles (compileGoal name args next) (·.Fits w vars) := by
  refine .seq (fun scopes => (Database.keeps_tableFor _).bind fun _ _ => .pure trivial)
    fun index => .pure (Code.fits_call.2 ⟨?_, ha, hn⟩)
  rw [Target.Fits]
  trivial

theorem fits_join {codes : List Code} (h : ∀ c ∈ codes, c.Fits w vars) :
    (Code.join codes).Fits w vars := by
  unfold Code.join
  split
  · exact h _ List.mem_cons_self
  · exact Code.fits_choice.2 h

theorem fits_chooseCode {scope inner : Nat} {hasCut : Bool} {condition : Code}
    {alternative : Option Code} (hc : condition.Fits w vars)
    (ha : ∀ a ∈ alternative, a.Fits w vars) :
    (chooseCode scope inner hasCut condition alternative).Fits w vars := by
  refine Code.fits_choice.2 fun c hmem => ?_
  rcases List.mem_cons.1 hmem with rfl | hmem
  · split
    · exact Code.fits_choice.2 fun c hc' => by rwa [List.mem_singleton.1 hc']
    · exact hc
  · exact ha c (Option.mem_toList.1 hmem)

/-- The branches of a body mention what it mentions, and what follows
does. -/
theorem compiles_branches {body : Body} (hb : body.Fits w vars) {next : Code}
    (hn : next.Fits w vars) (condition : Option Nat) :
    Compiles (branches condition body next) fun codes => ∀ c ∈ codes, c.Fits w vars := by
  have single : ∀ {c : Code}, c.Fits w vars → ∀ c' ∈ [c], c'.Fits w vars := by
    intro c hc c' hc'
    rwa [List.mem_singleton.1 hc']
  induction body generalizing next condition with
  | succeed => exact .pure (single hn)
  | cut => exact .pure (single (Code.fits_cut.2 hn))
  | later t =>
    exact .bind (compiles_goal (fun a ha => by rwa [List.mem_singleton.1 ha]) hn)
      fun _ hc => .pure (single hc)
  | goal name args => exact .bind (compiles_goal hb hn) fun _ hc => .pure (single hc)
  | uncallable t => exact fun _ => .throw (fits_type hb)
  | both first rest ihf ihr =>
    refine .bind (ihr hb.2 hn condition) fun codes hcodes => ?_
    exact .bind (ihf hb.1 (fits_join hcodes) condition) fun codes' hcodes' =>
      .pure (single (fits_join hcodes'))
  | either left right ihl ihr =>
    refine .bind (ihl hb.1 hn condition) fun codes hcodes => .bind (ihr hb.2 hn condition)
      fun codes' hcodes' => .pure fun c hc => ?_
    rcases List.mem_cons.1 hc with rfl | hc
    · exact fits_join hcodes
    · exact hcodes' c hc
  | ifThen test consequent iht ihc =>
    refine .bind compiles_newScope fun scope _ => .bind (ihc hb.2 hn condition)
      fun codes hcodes => .bind compiles_newScope fun inner _ => ?_
    refine .bind (iht hb.1 (Code.fits_cut.2 (fits_join hcodes)) (some inner)) fun codes' hcodes' => ?_
    exact .pure (single (fits_chooseCode (fits_join hcodes') fun _ ha => (nomatch ha)))
  | ifThenElse test consequent alternative iht ihc iha =>
    refine .bind compiles_newScope fun scope _ => .bind (ihc hb.2.1 hn condition)
      fun codes hcodes => .bind compiles_newScope fun inner _ => ?_
    refine .bind (iht hb.1 (Code.fits_cut.2 (fits_join hcodes)) (some inner))
      fun codes' hcodes' => .bind (iha hb.2.2 hn condition) fun codes'' hcodes'' => ?_
    refine .pure (single (fits_chooseCode (fits_join hcodes') fun a ha => ?_))
    cases ha
    exact fits_join hcodes''

theorem keeps_compile {body : Body} (hb : body.Fits w vars) {next : Code} (hn : next.Fits w vars) :
    Store.Keeps (body.compile next) (·.Fits w vars) :=
  (compiles_branches hb hn none 0).bind fun _ hcodes => .pure (fits_join hcodes)

end Body

-- ================================================== clauses

namespace Clause

variable {w : World} {vars : Nat → Prop}

theorem fits_of_ofTerm_error {t : Term} (ht : t.Fits w vars) {e : Failure}
    (h : Predicate.ofTerm t = .error e) : e.Fits true := by
  cases t <;> cases h
  all_goals first | exact fits_instantiation | exact fits_type ht

/-- A goal compiled on its own, its variables having slots. -/
theorem keeps_assemble_goal {body : Term} (h : body.Fits w vars) (names : List String) :
    Store.Keeps (assemble none body names) fun c => c.code.Fits w vars ∧ c.names = names :=
  .seq (.pure trivial) fun _ =>
    (Body.keeps_compile (Body.fits_ofTerm body (.bare h)) Code.fits_succeed).bind fun _ hcode =>
      Database.keeps_freshClause.bind fun _ _ => .pure ⟨hcode, rfl⟩

/-- A clause without frames is put together of what it was given. -/
theorem keeps_assemble {head : Option Term} {body : Term} {names : List String}
    (hh : ∀ t ∈ head, t.Fits .none (· < names.length)) (hb : body.Fits .none (· < names.length)) :
    Store.Keeps (assemble head body names) fun c => Clause.Fits c := by
  have hhead : (head.getD goalHead).Fits .none (· < names.length) := by
    cases head with
    | none => exact Term.fits_atom
    | some t => exact hh t rfl
  have hrest : ∀ predicate : Option Predicate, Store.Keeps (do
      let code ← (Body.ofTerm none body).compile .succeed
      let head := head.getD goalHead
      return (⟨← Database.freshClause, predicate, head, body, head.args, code, names⟩ : Clause))
      fun c => Clause.Fits c := fun predicate =>
    (Body.keeps_compile (Body.fits_ofTerm body (.bare hb)) Code.fits_succeed).bind fun code hcode =>
      Database.keeps_freshClause.bind fun _ _ => .pure (by
        rw [Clause.Fits]
        exact ⟨hhead, hb, hhead.args, hcode⟩)
  cases head with
  | none =>
    exact .seq (.pure trivial) hrest
  | some head =>
    unfold assemble
    dsimp only
    split
    · exact .seq (.pure trivial) hrest
    · rename_i e he
      exact .seq (.throw (fits_of_ofTerm_error (hh head rfl) he)) hrest

theorem keeps_compile {t : Term} (h : t.Fits .none anyVars) :
    Store.Keeps (compile t) fun c => Clause.Fits c := by
  refine (Database.keeps_indexTerm h).bind fun r hr => ?_
  obtain ⟨t', names⟩ := r
  dsimp only at hr ⊢
  split
  · rename_i head body hs
    obtain ⟨hh, hb⟩ := hr.split hs
    exact keeps_assemble (fun t ht => by cases ht; exact hh) hb
  · split
    · refine keeps_assemble (fun _ ht => (nomatch ht)) ?_
      cases ha : t'.arg? 0 with
      | none => exact Term.fits_atom
      | some a => exact hr.arg? ha
    · exact keeps_assemble (fun t ht => by cases ht; exact hr) Term.fits_atom

/-- The goal of a query. -/
theorem keeps_ofGoal {goal : Term} (h : goal.Fits .none anyVars) :
    Store.Keeps (ofGoal goal false) fun c => Clause.Fits c :=
  (Database.keeps_indexTerm h).bind fun _ hr => keeps_assemble (fun _ ht => (nomatch ht)) hr

end Clause

-- ================================================== compiled goals

namespace Database

theorem keeps_addClause {t : Term} (h : t.Fits .none anyVars) (position : Position) :
    Store.Keeps (addClause t position) fun _ => True := by
  refine (Clause.keeps_compile h).bind fun clause hc => ?_
  split
  · exact .throw (fits_type h)
  · refine (keeps_insert _ ?_ position).bind fun _ _ => .pure trivial
    rw [Procedure.Fits]
    exact hc

/-- The code mentions what the goal mentions, wherever that may be read. -/
def Follows (goal : Term) (c : Clause) : Prop :=
  ∀ x : World × (Nat → Prop), goal.Fits x.1 x.2 → c.code.Fits x.1 x.2

variable {w : World} {vars : Nat → Prop} {goal : Term}

/-- A goal that is the template of a closure, or is plain, compiles as it
stands. -/
theorem keeps_ofGoal_asIs {template : Bool} (h : goal.Fits w vars)
    (hp : template = true ∨ goal.isPlain = true) :
    Store.Keeps (Clause.ofGoal goal template) (Follows goal) := by
  have hasIs : ∀ {w : World} {vars : Nat → Prop}, goal.Fits w vars →
      Store.Keeps (Clause.ofGoal goal template) fun c => c.code.Fits w vars := by
    intro w vars h
    unfold Clause.ofGoal
    split
    · exact (Clause.keeps_assemble_goal h []).mono fun _ hc => hc.1
    · rename_i ht
      refine (keeps_indexTerm_of_isPlain (hp.resolve_left ht)).bind fun r hr => ?_
      rw [hr]
      exact (Clause.keeps_assemble_goal h []).mono fun _ hc => hc.1
  exact (hasIs h).all fun x hx => hasIs hx

theorem fits_of_cached? {db : Database} (hdb : db.Sound) {c : Clause} {cache : List (Term × Clause)}
    (hc : cached? goal db.cache = some (c, cache)) :
    Follows goal c ∧ ∀ e ∈ cache, e ∈ db.cache := by
  unfold cached? at hc
  split at hc
  · rename_i e he
    cases hc
    have hmem := List.mem_of_find?_eq_some he
    have hsame : e.1.same goal = true := by simpa using List.find?_some he
    refine ⟨fun x hx => (hdb.cache e hmem).2 x.1 x.2 ?_, fun e' he' => ?_⟩
    · exact Term.Fits.of_same hsame (hdb.cache e hmem).1 hx
    · rcases List.mem_cons.1 he' with rfl | he'
      · exact hmem
      · exact List.mem_of_mem_eraseP he'
  · cases hc

/-- A cached goal answers the code of one that is the same. -/
theorem keeps_compileGoal_asIs {template : Bool} (h : goal.Fits w vars)
    (hp : template = true ∨ goal.isPlain = true) :
    Store.Keeps (compileGoal goal template) (Follows goal) := by
  have hcache : (template || goal.isPlain) = true := by simpa using hp
  have hnew : Store.Keeps (do
      let clause ← Clause.ofGoal goal template
      modify fun db => { db with cache := cacheWith db.capacity goal clause db.cache }
      return clause) (Follows goal) := by
    refine (keeps_ofGoal_asIs h hp).bind fun c hc => ?_
    refine .seq (.modify trivial fun db hdb => ?_) fun _ => .pure hc
    refine { hdb with cache := fun e he => ?_ }
    rcases List.mem_cons.1 (List.mem_of_mem_take he) with rfl | he
    · exact ⟨h.wellMade, fun w vars hw => hc (w, vars) hw⟩
    · exact hdb.cache e he
  unfold compileGoal
  rw [if_pos hcache]
  refine .get_bind fun db hdb => ?_
  split
  · rename_i clause cache hc
    obtain ⟨hfollows, hsub⟩ := fits_of_cached? hdb hc
    refine .seq (.modify trivial fun db' hdb' => ?_) fun _ => .pure hfollows
    exact { hdb' with cache := fun e he => hdb.cache e (hsub e he) }
  · exact hnew

/-- The code of a goal for a frame of its own. -/
theorem keeps_compileGoal (h : goal.Fits w anyVars) :
    Store.Keeps (compileGoal goal false) fun c => c.code.Fits w (· < c.locals) := by
  by_cases hp : goal.isPlain = true
  · exact (keeps_compileGoal_asIs h (.inr hp)).mono fun c hc => hc (w, _) (h.of_isPlain hp)
  · unfold compileGoal
    rw [if_neg (by simpa using hp)]
    refine (keeps_indexTerm h).bind fun r hr => ?_
    refine (Clause.keeps_assemble_goal hr _).mono fun c hc => ?_
    rw [Clause.locals, hc.2]
    exact hc.1

end Database

end LogicMachine

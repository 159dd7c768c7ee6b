/-
The quoted text of a ground term tells the term.

A text is read from the left, and what makes it unambiguous is that at each
place the next characters tell how to go on. The first character of a term
tells a name between quotes, a bare name, a run of symbols, an integer and a
list apart, and each of these ends where a character comes that cannot be in
it (`Quoted.encode_append_inj`, `toList_toString_append_inj`). A run of
symbols and an integer may both start with a minus sign, an empty list and
another one with a bracket; there the second character decides. Whether a name
is an atom or starts a compound is told by what follows it, and so is whether a
sequence goes on.

So if two terms are written in front of something, the terms are the same, and
what is written after them is (`Readable`); the induction is on the levels of
nesting.
-/
import LogicMachine.Term.Text
import Mathlib

namespace LogicMachine

-- ================================================== runs of characters

namespace Text

/-- Two runs of characters of one kind, each up to a character of another, are
the same if what they start is. -/
theorem run_append_inj {p : Char → Bool} {a b r r' : List Char} (ha : ∀ c ∈ a, p c = true)
    (hb : ∀ c ∈ b, p c = true) (hr : ∀ c ∈ r.head?, p c = false) (hr' : ∀ c ∈ r'.head?, p c = false)
    (h : a ++ r = b ++ r') : a = b ∧ r = r' := by
  have hstop : ∀ {r : List Char}, (∀ c ∈ r.head?, p c = false) → r.takeWhile p = [] := by
    intro r hr
    cases r with
    | nil => rfl
    | cons c r => rw [List.takeWhile_cons_of_neg (by simp [hr c rfl])]
  have hrun := congrArg (List.takeWhile p) h
  rw [List.takeWhile_append_of_pos ha, List.takeWhile_append_of_pos hb, hstop hr, hstop hr',
    List.append_nil, List.append_nil] at hrun
  exact ⟨hrun, List.append_cancel_left (hrun ▸ h)⟩

/-- The characters that may follow a name. -/
def Stops (r : List Char) : Prop := ∀ c ∈ r.head?, c ∈ ['(', ')', ',', ']', ' ']

/-- The characters that may follow a term. -/
def Ends (r : List Char) : Prop := ∀ c ∈ r.head?, c ∈ [')', ',', ']', ' ']

theorem Ends.stops {r : List Char} (h : Ends r) : Stops r := fun c hc =>
  List.mem_cons_of_mem _ (h c hc)

theorem Stops.not_mem {r : List Char} (h : Stops r) {p : Char → Bool}
    (hp : ∀ c ∈ ['(', ')', ',', ']', ' '], p c = false) : ∀ c ∈ r.head?, p c = false := fun c hc =>
  hp c (h c hc)

-- ================================================== names

namespace Quoted

theorem isNameChar_of_isLower {c : Char} (h : c.isLower = true) : isNameChar c = true := by
  simp [isNameChar, Char.isAlphanum, Char.isAlpha, h]

/-- A bare name is one of the solo names, or a run of characters of a kind that
its first character tells. -/
theorem isBare_cases {a : List Char} (h : isBare a = true) : a ∈ solo
    ∨ (∃ c ∈ a.head?, c.isLower = true) ∧ (∀ c ∈ a, isNameChar c = true)
    ∨ (∃ c ∈ a.head?, isSymbol c = true) ∧ ∀ c ∈ a, isSymbol c = true := by
  unfold isBare at h
  rw [Bool.or_eq_true, List.contains_iff_mem] at h
  rcases h with h | h
  · exact .inl h
  · cases a with
    | nil => cases h
    | cons c rest =>
      dsimp only at h
      split at h
      · rename_i hlower
        rw [List.all_eq_true] at h
        exact .inr (.inl ⟨⟨c, rfl, hlower⟩,
          List.forall_mem_cons.2 ⟨isNameChar_of_isLower hlower, h⟩⟩)
      · split at h
        · rename_i hsymbol
          rw [List.all_eq_true] at h
          exact .inr (.inr ⟨⟨c, rfl, hsymbol⟩, List.forall_mem_cons.2 ⟨hsymbol, h⟩⟩)
        · cases h

theorem ne_nil_of_isBare {a : List Char} (h : isBare a = true) : a ≠ [] := by
  rintro rfl
  cases h

theorem symbols_eq : symbols =
    ['+', '-', '*', '/', '\\', '^', '<', '>', '=', '~', ':', '.', '?', '@', '#', '&', '$'] :=
  String.toList_ofList

/-- The first character of a solo name starts no other name. -/
theorem head_solo : ∀ a ∈ solo, ∀ c ∈ a.head?,
    c ≠ '\'' ∧ c.isLower = false ∧ isSymbol c = false := by
  simp [solo, isSymbol, symbols_eq]

theorem eq_of_head_solo : ∀ a ∈ solo, ∀ b ∈ solo, a.head? = b.head? → a = b := by
  decide

theorem isLower_of_isSymbol {c : Char} (h : isSymbol c = true) : c.isLower = false := by
  have hall : ∀ c ∈ symbols, c.isLower = false := by simp [symbols_eq]
  exact hall c (List.contains_iff_mem.1 h)

theorem head_ne_quote {a : List Char} (h : isBare a = true) : ∀ c ∈ a.head?, c ≠ '\'' := by
  rintro c hc rfl
  rcases isBare_cases h with hsolo | ⟨⟨d, hd, hlower⟩, -⟩ | ⟨⟨d, hd, hsymbol⟩, -⟩
  · exact (head_solo a hsolo _ hc).1 rfl
  · cases Option.mem_unique hc hd
    cases hlower
  · cases Option.mem_unique hc hd
    simp [isSymbol, symbols_eq] at hsymbol

/-- Bare names in front of something are the same if what they start is. -/
theorem bare_append_inj {a b r r' : List Char} (ha : isBare a = true) (hb : isBare b = true)
    (hr : Stops r) (hr' : Stops r') (h : a ++ r = b ++ r') : a = b ∧ r = r' := by
  have hhead : a.head? = b.head? := by
    have := congrArg List.head? h
    rwa [List.head?_append_of_ne_nil _ (ne_nil_of_isBare ha),
      List.head?_append_of_ne_nil _ (ne_nil_of_isBare hb)] at this
  have hname : ∀ c ∈ ['(', ')', ',', ']', ' '], isNameChar c = false := by simp [isNameChar]
  have hsym : ∀ c ∈ ['(', ')', ',', ']', ' '], isSymbol c = false := by
    simp [isSymbol, symbols_eq]
  rcases isBare_cases ha with hsolo | ⟨⟨c, hc, hlower⟩, hrun⟩ | ⟨⟨c, hc, hsymbol⟩, hrun⟩ <;>
    rcases isBare_cases hb with hsolo' | ⟨⟨d, hd, hlower'⟩, hrun'⟩ | ⟨⟨d, hd, hsymbol'⟩, hrun'⟩
  · obtain rfl := eq_of_head_solo a hsolo b hsolo' hhead
    exact ⟨rfl, List.append_cancel_left h⟩
  · simp_all [head_solo a hsolo d (hhead ▸ hd)]
  · simp_all [head_solo a hsolo d (hhead ▸ hd)]
  · simp_all [head_solo b hsolo' c (hhead ▸ hc)]
  · exact run_append_inj hrun hrun' (hr.not_mem hname) (hr'.not_mem hname) h
  · cases Option.mem_unique (hhead ▸ hc) hd
    simp_all [isLower_of_isSymbol hsymbol']
  · simp_all [head_solo b hsolo' c (hhead ▸ hc)]
  · cases Option.mem_unique (hhead ▸ hc) hd
    simp_all [isLower_of_isSymbol hsymbol]
  · exact run_append_inj hrun hrun' (hr.not_mem hsym) (hr'.not_mem hsym) h

/-- Between quotes only an escaped character starts with a backslash, and none
with a quote. -/
theorem escape_cases (c : Char) :
    (∃ d, escape c = ['\\', d]) ∨ escape c = [c] ∧ c ≠ '\\' ∧ c ≠ '\'' := by
  unfold escape
  split
  · exact .inl ⟨_, rfl⟩
  · exact .inl ⟨_, rfl⟩
  · exact .inl ⟨_, rfl⟩
  · exact .inl ⟨_, rfl⟩
  · rename_i hslash hquote _ _
    exact .inr ⟨rfl, hslash, hquote⟩

theorem escape_append_inj {c d : Char} {r r' : List Char} (h : escape c ++ r = escape d ++ r') :
    c = d ∧ r = r' := by
  have hslash : ∀ {x y d : Char} {r r' : List Char}, d ≠ '\\' →
      '\\' :: x :: r ≠ d :: r' := by
    rintro x y d r r' hd h
    exact hd (List.cons.inj h).1.symm
  unfold escape at h
  split at h <;> split at h <;> simp_all

/-- What stands between quotes ends at the first quote that is not escaped. -/
theorem escapes_append_inj {a b r r' : List Char}
    (h : a.flatMap escape ++ '\'' :: r = b.flatMap escape ++ '\'' :: r') : a = b ∧ r = r' := by
  have hstart : ∀ (c : Char) (q q' : List Char), escape c ++ q ≠ '\'' :: q' := by
    intro c q q' h
    obtain ⟨d, hd⟩ | ⟨hc, -, hquote⟩ := escape_cases c <;> simp_all
  induction a generalizing b with
  | nil =>
    cases b with
    | nil => exact ⟨rfl, (List.cons.inj h).2⟩
    | cons d b => exact absurd h.symm (by simpa using hstart d _ _)
  | cons c a ih =>
    cases b with
    | nil => exact absurd h (by simpa using hstart c _ _)
    | cons d b =>
      rw [List.flatMap_cons, List.flatMap_cons, List.append_assoc, List.append_assoc] at h
      obtain ⟨rfl, hrest⟩ := escape_append_inj h
      obtain ⟨rfl, rfl⟩ := ih hrest
      exact ⟨rfl, rfl⟩

/-- A written name tells the name, whatever stops it. -/
theorem encode_append_inj {a b r r' : List Char} (hr : Stops r) (hr' : Stops r')
    (h : encode a ++ r = encode b ++ r') : a = b ∧ r = r' := by
  have hquote : ∀ {a q q' : List Char}, isBare a = true → a ++ q ≠ '\'' :: q' := by
    intro a q q' ha h
    cases a with
    | nil => cases ha
    | cons c a => exact head_ne_quote ha c rfl (List.cons.inj h).1
  unfold encode at h
  split at h <;> rename_i ha <;> split at h <;> rename_i hb
  · exact bare_append_inj ha hb hr hr' h
  · exact absurd h (hquote ha)
  · exact absurd h.symm (hquote hb)
  · simp only [List.cons_append, List.append_assoc, List.nil_append, List.cons.injEq,
      true_and] at h
    exact escapes_append_inj h

/-- A written name is not empty. It starts with no digit and no closing bracket,
after an opening bracket it goes on with the closing one, and after a minus sign
with symbols only. -/
theorem encode_start (a : List Char) : ∃ c rest, encode a = c :: rest ∧ c.isDigit = false
    ∧ c ≠ ']' ∧ (c = '[' → rest = [']']) ∧ (c = '-' → ∀ d ∈ rest, isSymbol d = true) := by
  unfold encode
  split
  · rename_i hbare
    cases a with
    | nil => cases hbare
    | cons c a =>
      refine ⟨c, a, rfl, ?_⟩
      rcases isBare_cases hbare with hsolo | ⟨⟨d, hd, hlower⟩, -⟩ | ⟨⟨d, hd, hsymbol⟩, hrun⟩
      · simp only [solo, List.mem_cons, List.cons.injEq, List.not_mem_nil, or_false] at hsolo
        rcases hsolo with ⟨rfl, rfl⟩ | ⟨rfl, rfl⟩ | ⟨rfl, rfl⟩ | ⟨rfl, rfl⟩ <;> simp
      · cases hd
        refine ⟨?_, ?_, ?_, ?_⟩
        · simp only [Char.isLower, Char.isDigit, ge_iff_le, UInt32.le_iff_toNat_le,
            Bool.and_eq_true, decide_eq_true_eq, Bool.and_eq_false_iff,
            decide_eq_false_iff_not] at hlower ⊢
          have : 'a'.val.toNat = 97 := rfl
          have : '9'.val.toNat = 57 := rfl
          omega
        all_goals (rintro rfl; cases hlower)
      · cases hd
        have hall : ∀ c ∈ symbols, c.isDigit = false ∧ c ≠ ']' ∧ c ≠ '[' := by simp [symbols_eq]
        obtain ⟨hdigit, hclose, hopen⟩ := hall c (List.contains_iff_mem.1 hsymbol)
        exact ⟨hdigit, hclose, fun h => absurd h hopen,
          fun _ d hd => hrun d (List.mem_cons_of_mem _ hd)⟩
  · exact ⟨'\'', _, rfl, by simp⟩

/-- A name in front of something is no list. -/
theorem encode_append_ne_bracket {a r r' : List Char} {c : Char} (hc : c ≠ ']') :
    encode a ++ r ≠ '[' :: c :: r' := by
  intro h
  obtain ⟨d, rest, hstart, -, -, hopen, -⟩ := encode_start a
  rw [hstart, List.cons_append] at h
  obtain ⟨hd, h⟩ := List.cons.inj h
  rw [hopen hd] at h
  exact hc (List.cons.inj h).1.symm

end Quoted

-- ================================================== integers

/-- The text of an integer starts with a digit, or with a minus sign and a digit,
and goes on with digits. -/
theorem toList_toString_cases (i : Int) : ∃ c digits, (∀ d ∈ c :: digits, d.isDigit = true)
    ∧ ((toString i).toList = c :: digits ∨ (toString i).toList = '-' :: c :: digits) := by
  have hnat : ∀ n : Nat, ∃ c digits, (∀ d ∈ c :: digits, d.isDigit = true)
      ∧ n.repr.toList = c :: digits := by
    intro n
    rw [Nat.toList_repr]
    cases hn : Nat.toDigits 10 n with
    | nil => exact absurd hn Nat.toDigits_ne_nil
    | cons c digits =>
      have hdigits : ∀ d ∈ c :: digits, d.isDigit = true := fun d hd =>
        Nat.isDigit_of_mem_toDigits (by omega) (by omega) (hn ▸ hd)
      exact ⟨c, digits, hdigits, rfl⟩
  rw [Int.toString_eq_repr, Int.repr_eq_if]
  split
  · obtain ⟨c, digits, hdigits, htext⟩ := hnat i.toNat
    exact ⟨c, digits, hdigits, .inl htext⟩
  · obtain ⟨c, digits, hdigits, htext⟩ := hnat (-i).toNat
    exact ⟨c, digits, hdigits, .inr (by rw [String.toList_append, htext]; rfl)⟩

/-- An integer starts with no bracket. -/
theorem toList_toString_start (i : Int) :
    ∃ c rest, (toString i).toList = c :: rest ∧ c ≠ '[' ∧ c ≠ ']' := by
  obtain ⟨c, digits, hdigits, h | h⟩ := toList_toString_cases i
  · have hc := hdigits c (List.mem_cons_self ..)
    refine ⟨c, digits, h, ?_, ?_⟩ <;> rintro rfl <;> cases hc
  · exact ⟨'-', c :: digits, h, by decide, by decide⟩

/-- Integers in front of something are the same if what they start is. -/
theorem toList_toString_append_inj {i j : Int} {r r' : List Char} (hr : Stops r) (hr' : Stops r')
    (h : (toString i).toList ++ r = (toString j).toList ++ r') : i = j ∧ r = r' := by
  have hrun : ∀ (i : Int), ∀ c ∈ (toString i).toList, (c.isDigit || c == '-') = true := by
    intro i
    obtain ⟨c, digits, hdigits, h | h⟩ := toList_toString_cases i
    · rw [h]
      exact fun d hd => by simp [hdigits d hd]
    · rw [h]
      refine List.forall_mem_cons.2 ⟨rfl, fun d hd => by simp [hdigits d hd]⟩
  have hstop : ∀ c ∈ ['(', ')', ',', ']', ' '], (c.isDigit || c == '-') = false := by simp
  obtain ⟨htext, hrest⟩ := run_append_inj (hrun i) (hrun j) (hr.not_mem hstop) (hr'.not_mem hstop) h
  rw [Int.toString_eq_repr, Int.toString_eq_repr] at htext
  exact ⟨Int.repr_inj.1 (String.toList_inj.1 htext), hrest⟩

/-- A name in front of something is no integer. -/
theorem encode_append_ne_toString {a r r' : List Char} {i : Int} (hr : Stops r) :
    Text.Quoted.encode a ++ r ≠ (toString i).toList ++ r' := by
  intro h
  obtain ⟨d, rest, hstart, hdigit, -, -, hminus⟩ := Text.Quoted.encode_start a
  obtain ⟨c, digits, hdigits, hi | hi⟩ := toList_toString_cases i <;> rw [hstart, hi] at h
  · rw [(List.cons.inj h).1, hdigits c (List.mem_cons_self ..)] at hdigit
    cases hdigit
  · obtain ⟨hd, h⟩ := List.cons.inj h
    have hc := hdigits c (List.mem_cons_self ..)
    cases rest with
    | nil =>
      have hstop : ∀ c ∈ ['(', ')', ',', ']', ' '], c.isDigit = false := by simp
      rw [hstop c (hr c (by rw [show r = c :: (digits ++ r') from h]; rfl))] at hc
      cases hc
    | cons e rest =>
      have hsymbol : ∀ c ∈ Text.Quoted.symbols, c.isDigit = false := by
        simp [Text.Quoted.symbols_eq]
      cases (List.cons.inj h).1
      rw [hsymbol c (List.contains_iff_mem.1 (hminus hd c (List.mem_cons_self ..)))] at hc
      cases hc

theorem toString_append_ne_bracket (i : Int) {r r' : List Char} :
    (toString i).toList ++ r ≠ '[' :: r' := by
  intro h
  obtain ⟨c, rest, hstart, hc, -⟩ := toList_toString_start i
  rw [hstart] at h
  exact hc (List.cons.inj h).1

-- ================================================== sequences

/-- The characters that may follow a sequence of terms. -/
def Closes (r : List Char) : Prop := ∀ c ∈ r.head?, c ∈ [')', ']', ' ']

theorem Closes.ends {r : List Char} (h : Closes r) : Ends r := fun c hc => by
  have := h c hc
  simp only [List.mem_cons, List.not_mem_nil, or_false] at this ⊢
  tauto

end Text

open Text

/-- The texts of these terms tell them, whatever ends them. -/
def Tells (P : Term → Prop) (text : Term → List Char) : Prop :=
  ∀ ⦃s t : Term⦄, P s → P t → ∀ ⦃r r' : List Char⦄, Ends r → Ends r' →
    text s ++ r = text t ++ r' → s = t ∧ r = r'

/-- Texts with a comma and a space between them. -/
def sequence (text : Term → List Char) (ts : List Term) : List Char :=
  [',', ' '].intercalate (ts.map text)

section sequences

variable {P : Term → Prop} {text : Term → List Char} {r r' : List Char}

theorem sequence_singleton (t : Term) : sequence text [t] = text t := by
  simp [sequence]

theorem sequence_cons_cons (s t : Term) (ts : List Term) :
    sequence text (s :: t :: ts) = text s ++ ',' :: ' ' :: sequence text (t :: ts) := by
  simp [sequence, List.intercalate_cons_cons]

/-- A term that closes a sequence is not the first of a longer one. -/
theorem Tells.sequence_ne (h : Tells P text) (hr : Closes r) {s t t' : Term} {ts : List Term}
    (hs : P s) (ht : P t) : sequence text [s] ++ r ≠ sequence text (t :: t' :: ts) ++ r' := by
  intro heq
  rw [sequence_singleton, sequence_cons_cons, List.append_assoc] at heq
  obtain ⟨-, rfl⟩ := h hs ht hr.ends (by simp [Ends]) heq
  simp [Closes] at hr

/-- Sequences in front of something that closes them are the same if what they
start is. -/
theorem Tells.sequence_append_inj (h : Tells P text) (hr : Closes r) (hr' : Closes r')
    {ss ts : List Term} (hss : ss ≠ []) (hts : ts ≠ []) (hs : ∀ s ∈ ss, P s) (ht : ∀ t ∈ ts, P t)
    (heq : sequence text ss ++ r = sequence text ts ++ r') : ss = ts ∧ r = r' := by
  induction ss generalizing ts with
  | nil => exact absurd rfl hss
  | cons s ss ih =>
    obtain ⟨t, ts, rfl⟩ := List.exists_cons_of_ne_nil hts
    have hs' := hs s (List.mem_cons_self ..)
    have ht' := ht t (List.mem_cons_self ..)
    cases ss with
    | nil =>
      cases ts with
      | nil =>
        rw [sequence_singleton, sequence_singleton] at heq
        obtain ⟨rfl, hrest⟩ := h hs' ht' hr.ends hr'.ends heq
        exact ⟨rfl, hrest⟩
      | cons => exact absurd heq (h.sequence_ne hr hs' ht')
    | cons =>
      cases ts with
      | nil => exact absurd heq.symm (h.sequence_ne hr' ht' hs')
      | cons =>
        rw [sequence_cons_cons, sequence_cons_cons, List.append_assoc, List.append_assoc] at heq
        obtain ⟨rfl, htail⟩ := h hs' ht' (by simp [Ends]) (by simp [Ends]) heq
        simp only [List.cons_append, List.cons.injEq, true_and] at htail
        obtain ⟨hrest, hr⟩ := ih (List.cons_ne_nil _ _) (List.cons_ne_nil _ _)
          (fun s hs' => hs s (List.mem_cons_of_mem _ hs'))
          (fun t ht' => ht t (List.mem_cons_of_mem _ ht')) htail
        exact ⟨by rw [hrest], hr⟩

end sequences

-- ================================================== terms

namespace Term

/-- The cells of a list in front of what follows the last. -/
def listOnto (heads : List Term) (last : Term) : Term :=
  heads.foldr (fun head tail => build 0 dot [head, tail]) last

/-- Ground terms built from atoms, integers, compounds and lists, nested at most
so many levels deep, where a list is one level. -/
inductive Nested : Nat → Term → Prop
  | atom (n : Nat) (name : String) : Nested n (.atom name)
  | int (n : Nat) (i : Int64) : Nested n (.int i)
  | compound {n : Nat} (serial : Nat) (name : String) {args : List Term}
      (h : ∀ t ∈ args, Nested n t) : Nested (n + 1) (build serial name args)
  | list {n : Nat} {heads : List Term} {last : Term} (hne : heads ≠ [])
      (hheads : ∀ t ∈ heads, Nested n t) (hlast : Nested n last) :
      Nested (n + 1) (listOnto heads last)

theorem build_plain (serial : Nat) (name : String) {args : List Term}
    (h : ∀ t ∈ args, t.isPlain = true) :
    build serial name args = if args.isEmpty then .atom name else .compound .plain name args := by
  rw [build, if_pos (List.all_eq_true.2 h)]

theorem Nested.isPlain {n : Nat} {t : Term} (h : t.Nested n) : t.isPlain = true := by
  have hbuild : ∀ (name : String) (args : List Term),
      (if args.isEmpty then Term.atom name else .compound .plain name args).isPlain = true := by
    intro name args
    split <;> rfl
  have honto : ∀ {heads : List Term} {last : Term}, (∀ t ∈ heads, t.isPlain = true) →
      last.isPlain = true → (listOnto heads last).isPlain = true := by
    intro heads last hheads hlast
    induction heads with
    | nil => exact hlast
    | cons head heads ih =>
      obtain ⟨hhead, hheads⟩ := List.forall_mem_cons.1 hheads
      show (build 0 dot [head, listOnto heads last]).isPlain = true
      rw [build_plain 0 dot (by simp [hhead, ih hheads])]
      rfl
  induction h with
  | atom => rfl
  | int => rfl
  | compound serial name _ ih =>
    rw [build_plain serial name ih]
    exact hbuild ..
  | list _ _ _ ih ihlast => exact honto ih ihlast

theorem Nested.mono {n : Nat} {t : Term} (h : t.Nested n) : t.Nested (n + 1) := by
  induction h with
  | atom n name => exact .atom _ name
  | int n i => exact .int _ i
  | compound serial name _ ih => exact .compound serial name ih
  | list hne _ _ ih ihlast => exact .list hne ih ihlast

/-- The ways a ground term is written: as a name with its arguments, if any, as
an integer, or as a list of at least one cell. -/
inductive Layout (P : Term → Prop) : Term → Prop
  | named (name : String) (args : List Term) (hcell : ¬ (name = dot ∧ args.length = 2))
      (h : ∀ t ∈ args, P t) : Layout P (build 0 name args)
  | int (i : Int64) : Layout P (.int i)
  | list {heads : List Term} {last : Term} (hne : heads ≠ [])
      (hcell : last.hasFunctor dot 2 = false) (hheads : ∀ t ∈ heads, P t) (hlast : P last) :
      Layout P (listOnto heads last)

theorem hasFunctor_build_of_not_cell (serial : Nat) {name : String} {args : List Term}
    (h : ¬ (name = dot ∧ args.length = 2)) : (build serial name args).hasFunctor dot 2 = false := by
  unfold build
  split
  · simp [hasFunctor, functor?]
  · simpa [hasFunctor, functor?, imp_not_comm] using h

/-- A compound is a list cell, or not. -/
theorem cell_cases (name : String) (args : List Term) :
    (∃ head tail, name = dot ∧ args = [head, tail]) ∨ ¬ (name = dot ∧ args.length = 2) := by
  by_cases h : name = dot ∧ args.length = 2
  · obtain ⟨head, tail, rfl⟩ := List.length_eq_two.1 h.2
    exact .inl ⟨head, tail, h.1, rfl⟩
  · exact .inr h

/-- The cells along the right edge of a nested term, which may be none. -/
theorem Nested.spine {n : Nat} {t : Term} (h : t.Nested n) : ∃ heads last, t = listOnto heads last
    ∧ last.hasFunctor dot 2 = false ∧ (∀ t ∈ heads, t.Nested n) ∧ last.Nested n := by
  induction h with
  | atom n name => exact ⟨[], _, rfl, by simp [hasFunctor, functor?], by simp, .atom n name⟩
  | int n i => exact ⟨[], _, rfl, rfl, by simp, .int n i⟩
  | @compound _ serial name args hargs ih =>
    obtain ⟨head, tail, rfl, rfl⟩ | hcell := cell_cases name args
    · obtain ⟨heads, last, rfl, hcell, hheads, hlast⟩ := ih tail (by simp)
      refine ⟨head :: heads, last, ?_, hcell, ?_, hlast.mono⟩
      · rw [build_plain serial dot fun t ht => (hargs t ht).isPlain,
          ← build_plain 0 dot fun t ht => (hargs t ht).isPlain]
        rfl
      · exact List.forall_mem_cons.2 ⟨(hargs head (by simp)).mono, fun t ht => (hheads t ht).mono⟩
    · refine ⟨[], _, rfl, hasFunctor_build_of_not_cell serial hcell, by simp, ?_⟩
      exact .compound serial name hargs
  | list hne hheads hlast ih ihlast =>
    obtain ⟨heads', last, rfl, hcell, hheads', hlast'⟩ := ihlast
    exact ⟨_ ++ heads', last, List.foldr_append.symm, hcell, List.forall_mem_append.2
      ⟨fun t ht => (hheads t ht).mono, fun t ht => (hheads' t ht).mono⟩, hlast'.mono⟩

theorem Nested.layout {n : Nat} {t : Term} (h : t.Nested n) :
    Layout (fun u => ∃ m, m + 1 = n ∧ u.Nested m) t := by
  cases h with
  | atom _ name => exact .named name [] (by simp) (by simp)
  | int _ i => exact .int i
  | @compound _ serial name args hargs =>
    rw [build_plain serial name fun t ht => (hargs t ht).isPlain,
      ← build_plain 0 name fun t ht => (hargs t ht).isPlain]
    obtain ⟨head, tail, rfl, rfl⟩ | hcell := cell_cases name args
    · obtain ⟨heads, last, rfl, hcell, hheads, hlast⟩ := (hargs tail (by simp)).spine
      show Layout _ (listOnto (head :: heads) last)
      exact .list (List.cons_ne_nil _ _) hcell
        (List.forall_mem_cons.2 ⟨⟨_, rfl, hargs head (by simp)⟩, fun t ht => ⟨_, rfl, hheads t ht⟩⟩)
        ⟨_, rfl, hlast⟩
    · exact .named name _ hcell fun t ht => ⟨_, rfl, hargs t ht⟩
  | @list _ heads _ hne hheads hlast =>
    obtain ⟨heads', last, rfl, hcell, hheads', hlast'⟩ := hlast.spine
    rw [show listOnto heads (listOnto heads' last) = listOnto (heads ++ heads') last from
      List.foldr_append.symm]
    exact .list (by simp [hne]) hcell
      (List.forall_mem_append.2
        ⟨fun t ht => ⟨_, rfl, hheads t ht⟩, fun t ht => ⟨_, rfl, hheads' t ht⟩⟩)
      ⟨_, rfl, hlast'⟩

theorem listSpine_of_not_cell {t : Term} (h : t.hasFunctor dot 2 = false) :
    listSpine none t = ([], t) := by
  unfold listSpine
  split
  · rename_i name head tail
    rw [if_neg (by simpa [hasFunctor, functor?] using h)]
    rfl
  · rename_i name head tail frame
    rw [if_neg (by simpa [hasFunctor, functor?] using h)]
    rfl
  · rfl

theorem listSpine_listOnto {heads : List Term} {last : Term} (h : last.hasFunctor dot 2 = false) :
    listSpine none (listOnto heads last) = (heads, last) := by
  induction heads with
  | nil => exact listSpine_of_not_cell h
  | cons head heads ih =>
    show listSpine none (.compound _ dot [head, listOnto heads last]) = _
    rw [listSpine, if_pos rfl, ih]
    rfl

end Term

-- ================================================== texts of terms

namespace Lens

variable (forced : Nat → Option Term) (k : Nat)

/-- The text of a term that may be nested so many levels deep, as characters. -/
def spell (k : Nat) (t : Term) : List Char := ((detached forced).render true k t).toList

theorem spell_sequence (ts : List Term) :
    (", ".intercalate (ts.map ((detached forced).render true k))).toList
      = sequence (spell forced k) ts := by
  rw [String.toList_intercalate, List.map_map]
  rfl

theorem spell_int (i : Int64) : spell forced (k + 1) (.int i) = (toString i.toInt).toList := rfl

theorem spell_atom (name : String) :
    spell forced (k + 1) (.atom name) = Text.Quoted.encode name.toList :=
  String.toList_ofList

theorem spell_compound (form : Form) {name : String} {args : List Term}
    (h : (Term.compound form name args).hasFunctor Term.dot 2 = false) :
    spell forced (k + 1) (.compound form name args)
      = Text.Quoted.encode name.toList ++ '(' :: sequence (spell forced k) args ++ [')'] := by
  have hrender : (detached forced).render true (k + 1) (.compound form name args)
      = Text.Quoted.atom name ++ "("
        ++ ", ".intercalate (args.map ((detached forced).render true k)) ++ ")" := by
    rw [render]
    exact if_neg (by simp [detached, h])
  rw [spell, hrender, String.toList_append, String.toList_append, String.toList_append,
    spell_sequence, Text.Quoted.atom, String.toList_ofList]
  simp

/-- What follows the heads of a list: the empty list is not written. -/
def onto (k : Nat) (last : Term) : List Char :=
  if last.hasFunctor "[]" 0 then [] else ' ' :: '|' :: ' ' :: spell forced k last

theorem spell_listOnto {heads : List Term} {last : Term} (hne : heads ≠ [])
    (h : last.hasFunctor Term.dot 2 = false) : spell forced (k + 1) (.listOnto heads last)
      = '[' :: sequence (spell forced k) heads ++ onto forced k last ++ [']'] := by
  have hcell : (Term.listOnto heads last).hasFunctor Term.dot 2 = true := by
    obtain ⟨head, heads, rfl⟩ := List.exists_cons_of_ne_nil hne
    rfl
  have hrender : (detached forced).render true (k + 1) (.listOnto heads last)
      = "[" ++ ", ".intercalate (heads.map ((detached forced).render true k))
        ++ (if last.hasFunctor "[]" 0 then "" else " | " ++ (detached forced).render true k last)
        ++ "]" := by
    rw [render]
    refine (if_pos (by simpa [detached] using hcell)).trans ?_
    simp only [detached, id, Term.listSpine_listOnto h]
  rw [spell, hrender, String.toList_append, String.toList_append, String.toList_append,
    spell_sequence, onto]
  split <;> simp [spell]

/-- What follows the name of a compound; an atom ends with its name. -/
def arguments (k : Nat) (args : List Term) : List Char :=
  if args.isEmpty then [] else '(' :: sequence (spell forced k) args ++ [')']

theorem spell_build (serial : Nat) {name : String} {args : List Term}
    (h : ¬ (name = Term.dot ∧ args.length = 2)) : spell forced (k + 1) (.build serial name args)
      = Text.Quoted.encode name.toList ++ arguments forced k args := by
  have hcell := Term.hasFunctor_build_of_not_cell serial h
  unfold Term.build at hcell ⊢
  unfold arguments
  split
  · rw [spell_atom, List.append_nil]
  · rw [if_neg ‹_›] at hcell
    rw [spell_compound forced k _ hcell, List.append_assoc]

end Lens

-- ================================================== reading a text back

/-- Texts that tell their terms. None starts with the bracket that closes a list,
and only the empty list has its functor. -/
structure Readable (P : Term → Prop) (text : Term → List Char) : Prop where
  tells : Tells P text
  starts : ∀ t, P t → ∃ c rest, text t = c :: rest ∧ c ≠ ']'
  nil : ∀ t, P t → t.hasFunctor "[]" 0 = true → t = .nil

namespace Readable

open Lens Term

variable {P : Term → Prop} {forced : Nat → Option Term} {k : Nat} {r r' : List Char}

theorem mono {Q : Term → Prop} {text : Term → List Char} (h : Readable P text)
    (hQ : ∀ t, Q t → P t) : Readable Q text :=
  ⟨fun _ _ hs ht => h.tells (hQ _ hs) (hQ _ ht), fun t ht => h.starts t (hQ t ht),
    fun t ht => h.nil t (hQ t ht)⟩

theorem stops_arguments (args : List Term) (hr : Ends r) :
    Stops (arguments forced k args ++ r) := by
  unfold arguments
  split
  · exact hr.stops
  · simp [Stops]

theorem arguments_append_inj (h : Readable P (spell forced k)) {as bs : List Term}
    (ha : ∀ t ∈ as, P t) (hb : ∀ t ∈ bs, P t) (hr : Ends r) (hr' : Ends r')
    (heq : arguments forced k as ++ r = arguments forced k bs ++ r') : as = bs ∧ r = r' := by
  have hopen : ∀ {q q' : List Char}, Ends q → q ≠ '(' :: q' := by
    rintro q q' hq rfl
    simp [Ends] at hq
  unfold arguments at heq
  split at heq <;> rename_i hnil <;> split at heq <;> rename_i hnil'
  · rw [List.isEmpty_iff.1 hnil, List.isEmpty_iff.1 hnil']
    exact ⟨rfl, heq⟩
  · exact absurd heq (by simpa using hopen hr)
  · exact absurd heq.symm (by simpa using hopen hr')
  · rw [List.isEmpty_iff] at hnil hnil'
    simp only [List.cons_append, List.append_assoc, List.nil_append, List.cons.injEq,
      true_and] at heq
    obtain ⟨hargs, hrest⟩ := h.tells.sequence_append_inj (by simp [Closes]) (by simp [Closes])
      hnil hnil' ha hb heq
    exact ⟨hargs, (List.cons.inj hrest).2⟩

theorem closes_onto (last : Term) : Closes (onto forced k last ++ ']' :: r) := by
  unfold onto
  split <;> simp [Closes]

theorem onto_append_inj (h : Readable P (spell forced k)) {s t : Term} (hs : P s) (ht : P t)
    (heq : onto forced k s ++ ']' :: r = onto forced k t ++ ']' :: r') : s = t ∧ r = r' := by
  unfold onto at heq
  split at heq <;> rename_i hnil <;> split at heq <;> rename_i hnil'
  · rw [h.nil s hs hnil, h.nil t ht hnil']
    exact ⟨rfl, (List.cons.inj heq).2⟩
  · cases (List.cons.inj heq).1
  · cases (List.cons.inj heq).1
  · simp only [List.cons_append, List.cons.injEq, true_and] at heq
    obtain ⟨rfl, hrest⟩ := h.tells hs ht (by simp [Ends]) (by simp [Ends]) heq
    exact ⟨rfl, (List.cons.inj hrest).2⟩

/-- A list of at least one cell does not start like the empty list. -/
theorem spell_listOnto_start (h : Readable P (spell forced k)) {heads : List Term} {last : Term}
    (hne : heads ≠ []) (hcell : last.hasFunctor dot 2 = false) (hheads : ∀ t ∈ heads, P t) :
    ∃ c rest, spell forced (k + 1) (listOnto heads last) = '[' :: c :: rest ∧ c ≠ ']' := by
  obtain ⟨head, heads, rfl⟩ := List.exists_cons_of_ne_nil hne
  obtain ⟨c, rest, hstart, hc⟩ := h.starts head (hheads head (List.mem_cons_self ..))
  rw [spell_listOnto forced k hne hcell]
  cases heads with
  | nil => exact ⟨c, _, by rw [sequence_singleton, hstart]; rfl, hc⟩
  | cons => exact ⟨c, _, by rw [sequence_cons_cons, hstart]; rfl, hc⟩

/-- One level of nesting more: what follows the terms inside a term is written by
it, and tells where each ends. -/
theorem tells_layout (h : Readable P (spell forced k)) :
    Tells (Layout P) (spell forced (k + 1)) := by
  intro s t hs ht r r' hr hr' heq
  cases hs with
  | named name args hcell hargs =>
    rw [spell_build forced k 0 hcell, List.append_assoc] at heq
    cases ht with
    | named name' args' hcell' hargs' =>
      rw [spell_build forced k 0 hcell', List.append_assoc] at heq
      obtain ⟨hname, heq⟩ := Text.Quoted.encode_append_inj (stops_arguments args hr)
        (stops_arguments args' hr') heq
      obtain ⟨rfl, hrest⟩ := h.arguments_append_inj hargs hargs' hr hr' heq
      rw [String.toList_inj.1 hname]
      exact ⟨rfl, hrest⟩
    | int i => exact absurd heq (encode_append_ne_toString (stops_arguments args hr))
    | list hne hcell' hheads _ =>
      obtain ⟨c, rest, hstart, hc⟩ := h.spell_listOnto_start hne hcell' hheads
      rw [hstart] at heq
      exact absurd heq (Text.Quoted.encode_append_ne_bracket hc)
  | int i =>
    cases ht with
    | named name' args' hcell' hargs' =>
      rw [spell_build forced k 0 hcell', List.append_assoc] at heq
      exact absurd heq.symm (encode_append_ne_toString (stops_arguments args' hr'))
    | int j =>
      obtain ⟨hij, hrest⟩ := toList_toString_append_inj hr.stops hr'.stops heq
      rw [Int64.toInt_inj.1 hij]
      exact ⟨rfl, hrest⟩
    | list hne hcell' hheads _ =>
      rw [spell_listOnto forced k hne hcell', spell_int] at heq
      exact absurd heq (toString_append_ne_bracket _)
  | list hne hcell hheads hlast =>
    cases ht with
    | named name' args' hcell' hargs' =>
      obtain ⟨c, rest, hstart, hc⟩ := h.spell_listOnto_start hne hcell hheads
      rw [hstart, spell_build forced k 0 hcell', List.append_assoc] at heq
      exact absurd heq.symm (Text.Quoted.encode_append_ne_bracket hc)
    | int j =>
      rw [spell_listOnto forced k hne hcell, spell_int] at heq
      exact absurd heq.symm (toString_append_ne_bracket _)
    | list hne' hcell' hheads' hlast' =>
      rw [spell_listOnto forced k hne hcell, spell_listOnto forced k hne' hcell'] at heq
      simp only [List.cons_append, List.append_assoc, List.nil_append, List.cons.injEq,
        true_and] at heq
      obtain ⟨rfl, honto⟩ := h.tells.sequence_append_inj (closes_onto _) (closes_onto _) hne hne'
        hheads hheads' heq
      obtain ⟨rfl, hrest⟩ := h.onto_append_inj hlast hlast' honto
      exact ⟨rfl, hrest⟩

theorem layout (h : Readable P (spell forced k)) :
    Readable (Layout P) (spell forced (k + 1)) := by
  refine ⟨h.tells_layout, fun t ht => ?_, fun t ht hnil => ?_⟩
  · cases ht with
    | named name args hcell hargs =>
      obtain ⟨c, rest, hstart, -, hc, -⟩ := Text.Quoted.encode_start name.toList
      exact ⟨c, _, by rw [spell_build forced k 0 hcell, hstart]; rfl, hc⟩
    | int i =>
      obtain ⟨c, rest, hstart, -, hc⟩ := toList_toString_start i.toInt
      exact ⟨c, rest, hstart, hc⟩
    | list hne hcell hheads hlast =>
      exact ⟨'[', _, by rw [spell_listOnto forced k hne hcell]; rfl, by simp⟩
  · cases ht with
    | named name args hcell hargs =>
      cases args with
      | nil =>
        have hname : name = "[]" := by simpa [hasFunctor, functor?, build] using hnil
        rw [hname]
        rfl
      | cons => cases hnil
    | int i => cases hnil
    | list hne hcell hheads hlast =>
      obtain ⟨head, heads, rfl⟩ := List.exists_cons_of_ne_nil hne
      cases hnil

theorem nested (n : Nat) : Readable (Nested n) (spell forced (n + 1)) := by
  induction n with
  | zero =>
    have hnone : Readable (fun _ => False) (spell forced 0) :=
      ⟨fun _ _ h => h.elim, fun _ h => h.elim, fun _ h => h.elim⟩
    exact (hnone.mono fun t ⟨m, hm, _⟩ => by omega).layout.mono fun t ht => ht.layout
  | succ n ih =>
    have hbelow : ∀ t, (∃ m, m + 1 = n + 1 ∧ Nested m t) → Nested n t := by
      rintro t ⟨m, hm, ht⟩
      exact Nat.succ.inj hm ▸ ht
    exact (ih.mono hbelow).layout.mono fun t ht => ht.layout

end Readable

/-- Quoted texts are unambiguous: ground terms built from atoms, integers,
compounds and lists, nested at most a thousand levels deep, have the same quoted
text only if they are the same term. -/
theorem Lens.eq_of_text_eq (forced : Nat → Option Term) {s t : Term} (hs : s.Nested 1000)
    (ht : t.Nested 1000) (h : (detached forced).text s = (detached forced).text t) : s = t := by
  have hspell : spell forced levels s ++ [] = spell forced levels t ++ [] := by
    rw [List.append_nil, List.append_nil]
    exact congrArg String.toList h
  exact ((Readable.nested 1000).tells hs ht (by simp [Ends]) (by simp [Ends]) hspell).1

/-- A list of one element, built as a list and as a compound. -/
theorem Lens.eq_of_text_eq_singleton :
    (Term.listOnto [.atom "a"] .nil).Nested 1000
      ∧ (Term.build 7 Term.dot [.atom "a", .nil]).Nested 1000
      ∧ Term.listOnto [.atom "a"] .nil = .build 7 Term.dot [.atom "a", .nil] := by
  have hlist : (Term.listOnto [.atom "a"] .nil).Nested 1000 :=
    .list (by simp) (by simp [Term.Nested.atom]) (.atom _ _)
  have hcell : (Term.build 7 Term.dot [.atom "a", .nil]).Nested 1000 :=
    .compound 7 Term.dot (by simp [Term.Nested.atom, Term.nil])
  exact ⟨hlist, hcell, eq_of_text_eq (fun _ => none) hlist hcell rfl⟩

end LogicMachine

/-
Example programs, built as terms.
-/
import LogicMachine.Session

namespace LogicMachine.Programs

-- ============================================================ building terms

/-- A variable. -/
def named (name : String) : Term := .var (.ofName name)

/-- `name(args...)`, to be compiled as part of a clause or a goal. -/
def compound (name : String) (args : List Term) : Term := Term.build 0 name args

def int (i : Int) : Term := .int (Int64.ofInt i)

/-- A list cell. -/
def cons (head tail : Term) : Term := compound Term.dot [head, tail]

def list (items : List Term) : Term := items.foldr cons .nil

/-- `Head :- Body`. -/
def rule (head body : Term) : Term := compound ":-" [head, body]

/-- `First, Second, ...`. -/
def all : List Term → Term
  | [] => .atom "true"
  | [goal] => goal
  | goal :: goals => compound "," [goal, all goals]

-- ============================================================ the programs

/-- Membership in a list.

    member(X, [X|_]).
    member(X, [_|T]) :- member(X, T).
-/
def member : List Term :=
  let x := named "X"
  let t := named "T"
  let any := named "_"
  [compound "member" [x, cons x any],
   rule (compound "member" [x, cons any t]) (compound "member" [x, t])]

/-- Queens that do not attack each other, placed one row at a time.

    queens(N, Qs) :- place(N, N, [], Qs).
    place(0, _, Qs, Qs) :- !.
    place(K, N, Acc, Qs) :-
        between(1, N, Q), safe(Q, Acc, 1),
        K1 is K - 1, place(K1, N, [Q|Acc], Qs).
    safe(_, [], _).
    safe(Q, [Q1|Qs], D) :-
        Q =\= Q1, abs(Q - Q1) =\= D, D1 is D + 1, safe(Q, Qs, D1).
-/
def queens : List Term :=
  let k := named "K"
  let k1 := named "K1"
  let n := named "N"
  let q := named "Q"
  let q1 := named "Q1"
  let qs := named "Qs"
  let acc := named "Acc"
  let d := named "D"
  let d1 := named "D1"
  let any := named "_"
  [rule (compound "queens" [n, qs]) (compound "place" [n, n, .nil, qs]),
   rule (compound "place" [int 0, any, qs, qs]) (.atom "!"),
   rule (compound "place" [k, n, acc, qs]) (all [
     compound "between" [int 1, n, q],
     compound "safe" [q, acc, int 1],
     compound "is" [k1, compound "-" [k, int 1]],
     compound "place" [k1, n, cons q acc, qs]]),
   compound "safe" [any, .nil, any],
   rule (compound "safe" [q, cons q1 qs, d]) (all [
     compound "=\\=" [q, q1],
     compound "=\\=" [compound "abs" [compound "-" [q, q1]], d],
     compound "is" [d1, compound "+" [d, int 1]],
     compound "safe" [q, qs, d1]])]

/-- Naive reversal of a list of integers, repeated.

    app([], L, L).
    app([H|T], L, [H|R]) :- app(T, L, R).
    nrev([], []).
    nrev([H|T], R) :- nrev(T, RT), app(RT, [H], R).
    range(N, N, [N]) :- !.
    range(I, N, [I|T]) :- I < N, I1 is I + 1, range(I1, N, T).
    bench(0, _) :- !.
    bench(K, L) :- nrev(L, _), K1 is K - 1, bench(K1, L).
-/
def reversal : List Term :=
  let h := named "H"
  let t := named "T"
  let l := named "L"
  let r := named "R"
  let rt := named "RT"
  let i := named "I"
  let i1 := named "I1"
  let n := named "N"
  let k := named "K"
  let k1 := named "K1"
  let any := named "_"
  [compound "app" [.nil, l, l],
   rule (compound "app" [cons h t, l, cons h r]) (compound "app" [t, l, r]),
   compound "nrev" [.nil, .nil],
   rule (compound "nrev" [cons h t, r]) (all [
     compound "nrev" [t, rt],
     compound "app" [rt, list [h], r]]),
   rule (compound "range" [n, n, list [n]]) (.atom "!"),
   rule (compound "range" [i, n, cons i t]) (all [
     compound "<" [i, n],
     compound "is" [i1, compound "+" [i, int 1]],
     compound "range" [i1, n, t]]),
   rule (compound "bench" [int 0, any]) (.atom "!"),
   rule (compound "bench" [k, l]) (all [
     compound "nrev" [l, any],
     compound "is" [k1, compound "-" [k, int 1]],
     compound "bench" [k1, l]])]

/-- A loop that counts, whose recursive call is its last goal.

    count(I, N) :- I < N, !, gauge, I1 is I + 1, count(I1, N).
    count(N, N).
-/
def count : List Term :=
  let i := named "I"
  let i1 := named "I1"
  let n := named "N"
  [rule (compound "count" [i, n]) (all [
     compound "<" [i, n],
     .atom "!",
     .atom "gauge",
     compound "is" [i1, compound "+" [i, int 1]],
     compound "count" [i1, n]]),
   compound "count" [n, n]]

/-- The programs by name. -/
def find? (name : String) : Option (List Term) :=
  match name with
  | "member" => some member
  | "queens" => some queens
  | "nrev" => some reversal
  | "count" => some count
  | _ => none

end LogicMachine.Programs

import ControlLanguage.Proofs.Spelling.Spaces

/-!
# The names in a command

Of the tokens that a command was read from, some are names: of the command,
of its keywords, and of the calls inside of it with their keywords. A tree
knows which; every other token is part of a value or a parenthesis.
-/

namespace ControlLanguage

open Token

mutual

/-- For each token of a value, spaces left out, whether it is a name. -/
def Value.nameMarks : Value → List Bool
  | .scalar t => if t.isEmpty then [] else [false]
  | .group items => nameMarksOfValues items
  | .expression tokens wrapped =>
    let inner := List.replicate (solid tokens).length false
    if wrapped then false :: inner ++ [false] else inner
  | .nested call => nameMarksOfCall call

def nameMarksOfValues : List Value → List Bool
  | [] => []
  | v :: vs => v.nameMarks ++ nameMarksOfValues vs

def nameMarksOfCall : Call Value → List Bool
  | ⟨_, bindings, _, _⟩ => true :: nameMarksOfBindings bindings

def nameMarksOfBindings : List (Binding Value) → List Bool
  | [] => []
  | b :: bs => nameMarksOfBinding b ++ nameMarksOfBindings bs

def nameMarksOfBinding : Binding Value → List Bool
  | ⟨name, value⟩ => if isPlaceholder name then value.nameMarks else true :: false :: value.nameMarks ++ [false]

end

def Command.nameMarks (c : Command) : List Bool := nameMarksOfCall c

def upperMarked (marks : List Bool) (ts : List (TokenKind × Text)) : List (TokenKind × Text) :=
  List.zipWith (fun m t => if m then (t.1, t.2.upper) else t) marks ts

theorem upperMarked_append {a b : List Bool} {ts us : List (TokenKind × Text)} (h : a.length = ts.length) :
    upperMarked (a ++ b) (ts ++ us) = upperMarked a ts ++ upperMarked b us :=
  List.zipWith_append h

theorem upperMarked_cons (m : Bool) (marks : List Bool) (t : TokenKind × Text) (ts : List (TokenKind × Text)) :
    upperMarked (m :: marks) (t :: ts) = (if m then (t.1, t.2.upper) else t) :: upperMarked marks ts := rfl

theorem upperMarked_false {n : Nat} {ts : List (TokenKind × Text)} (h : ts.length = n) :
    upperMarked (List.replicate n false) ts = ts := by
  subst h
  induction ts with
  | nil => rfl
  | cons t ts ih => exact congrArg (t :: ·) ih

namespace Value

theorem isPlaceholder_placeholder (n : Nat) : isPlaceholder (placeholder n) = true := by
  rw [isPlaceholder, List.isPrefixOf_iff_prefix]
  exact List.prefix_append ..

theorem nameMarks_ofRun {ts : List Token} (h : ∀ t ∈ ts, t.text ≠ []) :
    (ofRun ts).nameMarks = List.replicate (solid ts).length false := by
  match ts with
  | [] => rfl
  | [t] =>
    rw [ofRun]
    by_cases hk : t.kind.isScalar = true
    · have hs : t.isSpace = false := isSpace_of_kind rfl (by intro hs; rw [hs] at hk; cases hk)
      have ht := h t (List.mem_cons_self ..)
      rw [if_pos hk, nameMarks, if_neg (by simpa using ht), solid_cons hs]; rfl
    · rw [if_neg hk]; rfl
  | _ :: _ :: _ => rfl

theorem nameMarks_ofGroups (vs : List Value) : (ofGroups vs).nameMarks = nameMarksOfValues vs := by
  match vs with
  | [] => rfl
  | [v] => exact (List.append_nil _).symm
  | _ :: _ :: _ => rfl

theorem length_solid_span {p q : Token} (hp : p.kind = .parenOpen) (hq : q.kind = .parenClose)
    (inner rest : List Token) :
    (solid (p :: inner ++ q :: rest)).length = (solid inner).length + 2 + (solid rest).length := by
  rw [solid_append, solid_cons (isSpace_of_kind hp (by decide)), solid_cons (isSpace_of_kind hq (by decide))]
  simp only [List.length_append, List.length_cons]; omega

theorem nameMarks_wrapped (ts : List Token) :
    (expression ts true).nameMarks = List.replicate ((solid ts).length + 2) false := by
  rw [nameMarks, if_pos rfl, List.replicate_succ', List.replicate_succ, List.cons_append]

theorem GroupsOf.nameMarks {ts : List Token} {vs : List Value} (h : GroupsOf ts vs)
    (ht : ∀ t ∈ ts, t.text ≠ []) :
    nameMarksOfValues vs = List.replicate (solid ts).length false := by
  induction h with
  | nil => rfl
  | space hs _ ih => rw [solid_cons_space hs]; exact ih fun u hu => ht u (List.mem_cons_of_mem _ hu)
  | @span p inner q rest vs hp _ hq _ ih =>
    rw [nameMarksOfValues, nameMarks_wrapped, length_solid_span hp hq, ih fun u hu => ht u (by simp [hu]),
      List.replicate_append_replicate]
  | @run t run rest vs _ _ _ _ ih =>
    obtain ⟨sp, hsplit, hsp⟩ := exists_dropTrailingSpaces (t :: run)
    have hlen : solid (t :: run) = solid (dropTrailingSpaces (t :: run)) := by
      conv_lhs => rw [hsplit, solid_append, solid_spaces hsp, List.append_nil]
    have hrun : ∀ u ∈ dropTrailingSpaces (t :: run), u.text ≠ [] := by
      intro u hu
      refine ht u (List.mem_append_left _ ?_)
      rw [hsplit]; exact List.mem_append_left _ hu
    rw [nameMarksOfValues, nameMarks_ofRun hrun, ih fun u hu => ht u (List.mem_append_right _ hu), solid_append,
      hlen, List.length_append, List.replicate_append_replicate]

theorem ofPositional_cases (ts : List Token) : (∃ p inner q, ts = p :: inner ++ [q] ∧ p.kind = .parenOpen ∧
    Balanced inner ∧ q.kind = .parenClose ∧ ofPositional ts = .expression inner true) ∨
    ofPositional ts = ofRun ts := by
  cases ts with
  | nil => exact .inr rfl
  | cons p ts =>
    rw [ofPositional]
    split
    · next inner q hp hs =>
      obtain ⟨hq, hb⟩ := Span.balanced_of_of? hs
      exact .inl ⟨p, inner, q, by rw [Span.eq_of_of? hs]; rfl, hp, hb, hq, rfl⟩
    · exact .inr rfl

theorem ofPositional_wrapped {p q : Token} {inner : List Token} (hp : p.kind = .parenOpen)
    (hb : Balanced inner) (hq : q.kind = .parenClose) :
    ofPositional (p :: (inner ++ [q])) = .expression inner true := by
  rw [ofPositional, hp, Span.of?_append hb hq]

theorem nameMarks_ofPositional {ts : List Token} (h : ∀ t ∈ ts, t.text ≠ []) :
    (ofPositional ts).nameMarks = List.replicate (solid ts).length false := by
  rcases ofPositional_cases ts with ⟨p, inner, q, rfl, hp, _, hq, hv⟩ | hv
  · rw [hv, nameMarks_wrapped, length_solid_span hp hq]; rfl
  · rw [hv, nameMarks_ofRun h]

end Value

end ControlLanguage

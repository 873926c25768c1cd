import Mathlib.Data.List.Basic
import DataBinding.Proofs.PlantedDocuments
import DataBinding.Proofs.TokenLexemes

namespace DataBinding.Markup

def Token.opens? : Token → Option String
  | .start tag _ false => some tag
  | _ => none

def Token.node? : Token → Option Tree
  | .start tag attributes _ => some (.element tag attributes [])
  | .text content => some (.text content)
  | .comment | .close _ _ => none

def tagAt (ts : List Token) (i : Nat) : Option String := ts[i]?.bind Token.opens?

/-- Whether a token leaves an open element open: a closing tag closes the innermost open element of its name and all
that was opened after it. -/
def Token.leaves (token : Token) (ts : List Token) (opened : List Nat) (i : Nat) : Bool :=
  match token with
  | .close tag _ => opened.any fun k => i < k && tagAt ts k = some tag
  | _ => true

def openBefore (ts : List Token) : Nat → List Nat
  | 0 => []
  | i + 1 => match ts[i]? with
    | none => openBefore ts i
    | some token =>
      (if token.opens?.isSome then [i] else []) ++ (openBefore ts i).filter (token.leaves ts (openBefore ts i))

def numberOf (ts : List Token) (i : Nat) : Nat := ((ts.take i).filterMap Token.node?).length

/-- The nodes of tokens in order, each after the number of its parent. -/
def nodesOf (ts : List Token) : List (Option Nat × Tree) :=
  ts.zipIdx.filterMap fun (token, i) =>
    token.node?.map fun node => ((openBefore ts i).head?.map (numberOf ts), node)

def Matched (ts : List Token) : Prop :=
  ∀ i tag rest, ts[i]? = some (.close tag rest) → ∃ k ∈ openBefore ts i, tagAt ts k = some tag

mutual

def Tree.outline (parent : Option Nat) (number : Nat) : Tree → List (Option Nat × Tree)
  | .text content => [(parent, .text content)]
  | .element tag attributes children =>
    (parent, .element tag attributes []) :: outlineAll (some number) (number + 1) children

def outlineAll (parent : Option Nat) (number : Nat) : List Tree → List (Option Nat × Tree)
  | [] => []
  | tree :: rest =>
    let here := tree.outline parent number
    here ++ outlineAll parent (number + here.length) rest

end

variable {ts us : List Token} {token : Token} {n n' : Nesting} {opened outer : List Opened} {children : List Tree}
  {tag : String} {cs rest : List Char}

theorem tagAt_append {i : Nat} (before : i < ts.length) (us : List Token) : tagAt (ts ++ us) i = tagAt ts i := by
  rw [tagAt, tagAt, List.getElem?_append_left before]

theorem lt_of_mem_openBefore {i k : Nat} (mem : k ∈ openBefore ts i) : k < i ∧ k < ts.length := by
  induction i with
  | zero => cases mem
  | succ i ih =>
    rw [openBefore] at mem
    split at mem
    · have := ih mem
      omega
    · next token at' =>
      have := (List.getElem?_eq_some_iff.1 at').1
      rcases List.mem_append.1 mem with new | old
      · split at new
        · have := List.mem_singleton.1 new
          omega
        · cases new
      · have := ih (List.mem_filter.1 old).1
        omega

theorem leaves_append (token : Token) {opened : List Nat} (within : ∀ k ∈ opened, k < ts.length) (us : List Token) :
    token.leaves (ts ++ us) opened = token.leaves ts opened := by
  funext i
  cases token with
  | close tag rest =>
    rw [Token.leaves, Token.leaves, Bool.eq_iff_iff, List.any_eq_true, List.any_eq_true]
    refine exists_congr fun k => and_congr_right fun mem => ?_
    rw [tagAt_append (within k mem)]
  | _ => rfl

theorem openBefore_append {i : Nat} (within : i ≤ ts.length) (us : List Token) :
    openBefore (ts ++ us) i = openBefore ts i := by
  induction i with
  | zero => rfl
  | succ i ih =>
    rw [openBefore, openBefore, List.getElem?_append_left within, ih (Nat.le_of_succ_le within)]
    cases ts[i]? with
    | none => rfl
    | some token => exact congrArg _ (congrArg (List.filter · _)
        (leaves_append token (fun k mem => (lt_of_mem_openBefore mem).2) us))

theorem openBefore_concat (ts : List Token) (token : Token) :
    openBefore (ts ++ [token]) (ts.length + 1) = (if token.opens?.isSome then [ts.length] else []) ++
      (openBefore ts ts.length).filter (token.leaves ts (openBefore ts ts.length)) := by
  rw [openBefore, List.getElem?_concat_length, openBefore_append (Nat.le_refl _)]
  dsimp only
  rw [leaves_append token (fun k mem => (lt_of_mem_openBefore mem).2)]

theorem numberOf_append {i : Nat} (within : i ≤ ts.length) (us : List Token) :
    numberOf (ts ++ us) i = numberOf ts i := by
  rw [numberOf, numberOf, List.take_append_of_le_length within]

@[simp] theorem nodesOf_concat (ts : List Token) (token : Token) : nodesOf (ts ++ [token]) = nodesOf ts ++
    (token.node?.map fun node => ((openBefore ts ts.length).head?.map (numberOf ts), node)).toList := by
  have parents {i : Nat} (within : i ≤ ts.length) :
      (openBefore (ts ++ [token]) i).head?.map (numberOf (ts ++ [token])) =
        (openBefore ts i).head?.map (numberOf ts) := by
    rw [openBefore_append within]
    cases first : (openBefore ts i).head? with
    | none => rfl
    | some k =>
      have := lt_of_mem_openBefore (List.mem_of_head? first)
      exact congrArg some (numberOf_append (by omega) _)
  rw [nodesOf, List.zipIdx_append, List.filterMap_append, nodesOf]
  congr 1
  · apply List.filterMap_congr
    rintro ⟨t, i⟩ mem
    have := List.snd_lt_of_mem_zipIdx mem
    dsimp only
    rw [parents (by omega)]
  · simp only [List.zipIdx_cons, List.zipIdx_nil, List.filterMap_cons, List.filterMap_nil, Nat.zero_add]
    rw [parents (Nat.le_refl _)]
    cases token.node? <;> rfl

@[simp] theorem map_nodesOf (ts : List Token) : (nodesOf ts).map Prod.snd = ts.filterMap Token.node? := by
  rw [nodesOf, List.map_filterMap]
  conv => rhs; rw [← List.zipIdx_map_fst 0 ts, List.filterMap_map]
  congr 1
  funext p
  cases h : p.1.node? <;> simp [h]

@[simp] theorem length_nodesOf (ts : List Token) : (nodesOf ts).length = numberOf ts ts.length := by
  rw [numberOf, List.take_length, ← map_nodesOf, List.length_map]

theorem pairwise_openBefore (ts : List Token) (i : Nat) : (openBefore ts i).Pairwise (· > ·) := by
  induction i with
  | zero => exact List.Pairwise.nil
  | succ i ih =>
    rw [openBefore]
    split
    · exact ih
    · rw [List.pairwise_append]
      refine ⟨?_, ih.filter _, ?_⟩
      · split <;> simp
      · intro j new k old
        have := (lt_of_mem_openBefore (List.mem_filter.1 old).1).1
        split at new
        · have := List.mem_singleton.1 new
          omega
        · cases new

theorem filter_below {opened : List Nat} (descending : opened.Pairwise (· > ·)) (p : Nat → Bool) :
    opened.filter (fun i => opened.any fun k => i < k && p k) = (opened.dropWhile fun k => !p k).tail := by
  induction opened with
  | nil => rfl
  | cons a opened ih =>
    obtain ⟨above, descending⟩ := List.pairwise_cons.1 descending
    have top : ((a :: opened).any fun k => a < k && p k) = false := by
      rw [List.any_eq_false]
      rintro k (_ | ⟨_, mem⟩)
      · simp
      · have := above k mem
        simp
        omega
    have others : ∀ i ∈ opened, ((a :: opened).any fun k => i < k && p k) =
        (p a || opened.any fun k => i < k && p k) := by
      intro i mem
      rw [List.any_cons, decide_eq_true (above i mem), Bool.true_and]
    rw [List.filter_cons_of_neg (by rw [top]; exact Bool.false_ne_true), List.filter_congr others, List.dropWhile_cons]
    cases p a with
    | true => simp
    | false => simpa using ih descending

theorem outlineAll_append (parent : Option Nat) (number : Nat) (trees more : List Tree) :
    outlineAll parent number (trees ++ more) = outlineAll parent number trees ++
      outlineAll parent (number + (outlineAll parent number trees).length) more := by
  induction trees generalizing number with
  | nil => simp [outlineAll]
  | cons tree rest ih => simp [outlineAll, ih, Nat.add_assoc]

def settled : List Opened → Option Nat × List (Option Nat × Tree)
  | [] => (none, [])
  | o :: outer =>
    let (parent, nodes) := settled outer
    let before := nodes ++ outlineAll parent nodes.length o.before.reverse
    (some before.length, before ++ [(parent, .element o.tag o.attributes [])])

def Nesting.outline (n : Nesting) : List (Option Nat × Tree) :=
  (settled n.opened).2 ++ outlineAll (settled n.opened).1 (settled n.opened).2.length n.children.reverse

theorem settled_cons (o : Opened) (outer : List Opened) : settled (o :: outer) =
    (some (Nesting.mk outer o.before).outline.length,
      (Nesting.mk outer o.before).outline ++ [((settled outer).1, .element o.tag o.attributes [])]) := rfl

@[simp] theorem outline_add (n : Nesting) (tree : Tree) :
    (n.add tree).outline = n.outline ++ tree.outline (settled n.opened).1 n.outline.length := by
  simp [Nesting.outline, Nesting.add, outlineAll_append, outlineAll]

theorem outline_close (o : Opened) (outer : List Opened) (children : List Tree) :
    (Nesting.mk outer (.element o.tag o.attributes children.reverse :: o.before)).outline =
      (Nesting.mk (o :: outer) children).outline := by
  have added := outline_add ⟨outer, o.before⟩ (.element o.tag o.attributes children.reverse)
  have inner : (Nesting.mk (o :: outer) children).outline =
      (Nesting.mk outer o.before).outline ++ [((settled outer).1, .element o.tag o.attributes [])] ++
        outlineAll (some (Nesting.mk outer o.before).outline.length)
          ((Nesting.mk outer o.before).outline.length + 1) children.reverse := by
    rw [Nesting.outline, settled_cons, List.length_append, List.length_singleton]
  rw [inner, List.append_assoc]
  exact added

def spine : List Opened → List (Nat × Option String)
  | [] => []
  | o :: outer => ((Nesting.mk outer o.before).outline.length, some o.tag) :: spine outer

theorem head_spine (opened : List Opened) : (spine opened).head?.map Prod.fst = (settled opened).1 := by
  cases opened <;> rfl

theorem leave?_eq_some (left : Nesting.leave? tag opened children = some n) :
    n.outline = (Nesting.mk opened children).outline ∧
      spine n.opened = ((spine opened).dropWhile fun entry => entry.2 ≠ some tag).tail := by
  induction opened generalizing children with
  | nil => cases left
  | cons o outer ih =>
    rw [Nesting.leave?] at left
    split at left
    · next here =>
      cases left
      exact ⟨outline_close o outer children, by simp [spine, here]⟩
    · next other =>
      obtain ⟨outline, opened⟩ := ih left
      exact ⟨outline.trans (outline_close o outer children), by simpa [spine, other] using opened⟩

theorem entries_append {opened : List Nat} (within : ∀ k ∈ opened, k < ts.length) (us : List Token) :
    (opened.map fun k => (numberOf (ts ++ us) k, tagAt (ts ++ us) k)) =
      opened.map fun k => (numberOf ts k, tagAt ts k) := by
  apply List.map_congr_left
  intro k mem
  rw [numberOf_append (Nat.le_of_lt (within k mem)), tagAt_append (within k mem)]

/-- What has been read are the nodes of the tokens, and the open elements are those that the tokens leave open. -/
structure Follows (ts : List Token) (n : Nesting) : Prop where
  outline : n.outline = nodesOf ts
  spine : spine n.opened = (openBefore ts ts.length).map fun k => (numberOf ts k, tagAt ts k)

namespace Follows

variable (h : Follows ts n)
include h

theorem parent : (settled n.opened).1 = (openBefore ts ts.length).head?.map (numberOf ts) := by
  rw [← head_spine, h.spine, List.head?_map, Option.map_map]
  rfl

theorem length_outline : n.outline.length = numberOf ts ts.length := by
  simp [h.outline]

theorem still (opens : token.opens? = none)
    (leaves : token.leaves ts (openBefore ts ts.length) = fun _ => true) :
    Markup.spine n.opened = (openBefore (ts ++ [token]) (ts ++ [token]).length).map fun k =>
      (numberOf (ts ++ [token]) k, tagAt (ts ++ [token]) k) := by
  rw [List.length_append, List.length_singleton, openBefore_concat, opens, leaves, List.filter_true]
  exact h.spine.trans (entries_append (fun k mem => (lt_of_mem_openBefore mem).2) _).symm

theorem leaf {tree : Tree} (node : token.node? = some tree)
    (alone : ∀ parent number, tree.outline parent number = [(parent, tree)]) (opens : token.opens? = none)
    (leaves : token.leaves ts (openBefore ts ts.length) = fun _ => true) :
    Follows (ts ++ [token]) (n.add tree) where
  outline := by
    rw [outline_add, alone, nodesOf_concat, node, h.parent, h.outline]
    rfl
  spine := h.still opens leaves

theorem enter (tag : String) (attributes : Fields String) :
    Follows (ts ++ [.start tag attributes false]) (n.enter tag attributes) where
  outline := by
    rw [Nesting.outline, Nesting.enter, settled_cons, nodesOf_concat, h.parent]
    simp [outlineAll, h.outline, Token.node?]
  spine := by
    have all : (Token.start tag attributes false).leaves ts (openBefore ts ts.length) = fun _ => true := rfl
    have number : numberOf (ts ++ [.start tag attributes false]) ts.length = n.outline.length := by
      rw [numberOf_append (Nat.le_refl _), h.length_outline]
    have name : tagAt (ts ++ [.start tag attributes false]) ts.length = some tag := by
      rw [tagAt, List.getElem?_concat_length]
      rfl
    rw [List.length_append, List.length_singleton, openBefore_concat, all, List.filter_true, List.map_append,
      entries_append (fun k mem => (lt_of_mem_openBefore mem).2), ← h.spine]
    simp only [Token.opens?, Option.isSome_some, if_true, List.map_singleton, number, name]
    rfl

theorem close (left : Nesting.leave? tag n.opened n.children = some n') :
    Follows (ts ++ [.close tag rest]) n' where
  outline := by
    rw [(leave?_eq_some left).1, nodesOf_concat, ← h.outline]
    exact (List.append_nil _).symm
  spine := by
    have below : (openBefore ts ts.length).filter ((Token.close tag rest).leaves ts (openBefore ts ts.length)) =
        ((openBefore ts ts.length).dropWhile fun k => !decide (tagAt ts k = some tag)).tail :=
      filter_below (pairwise_openBefore ts ts.length) fun k => tagAt ts k = some tag
    have within : ∀ k ∈ ((openBefore ts ts.length).dropWhile fun k => !decide (tagAt ts k = some tag)).tail,
        k < ts.length := fun k mem =>
      (lt_of_mem_openBefore ((List.dropWhile_sublist _).subset (List.mem_of_mem_tail mem))).2
    rw [List.length_append, List.length_singleton, openBefore_concat, below, (leave?_eq_some left).2, h.spine,
      List.dropWhile_map, ← List.map_tail]
    simp only [Token.opens?, Option.isSome_none, Bool.false_eq_true, if_false, List.nil_append]
    rw [entries_append within]
    simp [Function.comp_def]

end Follows

theorem tokens_of_error {c : Char} {stop : Stop} (failed : next c cs = .error stop) :
    tokens (c :: cs) = ([], some stop) := by
  rw [tokens]
  split <;> simp_all

def fault? (n : Nesting) (cs : List Char) : Option Stop :=
  match ofTokens n (tokens cs).1 with
  | .error stop => some stop
  | .ok _ => (tokens cs).2

theorem fault?_congr (same : n.readOn cs = n'.readOn rest) : fault? n cs = fault? n' rest := by
  obtain ⟨taken, ended⟩ := Prod.mk.inj same
  rw [fault?, fault?, taken, ended]

theorem read_eq_error_iff {text : String} {err : DocumentError} : read text = .error err ↔
    ∃ stop ∈ fault? .empty text.toList,
      err = .malformed (byteCount text.toList - byteCount stop.rest) stop.fault := by
  simp only [read, fault?]
  cases ofTokens .empty (tokens text.toList).1 with
  | error stop => simp [eq_comm]
  | ok n => cases (tokens text.toList).2 <;> simp [eq_comm]

section

variable {name after : List Char} (named : isName name = true) (whole : ∀ d ∈ after.head?, isTagChar d = false)
include named whole

theorem fault?_of_ended (n : Nesting) (ends : skipSpace after = '>' :: rest) :
    fault? n ('<' :: '/' :: (name ++ after)) =
      match Nesting.leave? (String.ofList (Text.lower name)) n.opened n.children with
      | some n' => fault? n' rest
      | none => some ⟨rest, .unmatchedClosingTag (String.ofList (Text.lower name))⟩ := by
  rw [fault?, tokens_of_next (next_of_ended named whole ends), ofTokens, Nesting.take]
  cases Nesting.leave? (String.ofList (Text.lower name)) n.opened n.children <;> rfl

end

deriving instance DecidableEq for Token

deriving instance DecidableEq for Stop

def crossed : List Char := "<ul><LI>x<br>&lt;<!--<b>-->y</Ul >z".toList

end DataBinding.Markup

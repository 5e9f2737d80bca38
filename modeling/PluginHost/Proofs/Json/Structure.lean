import PluginHost.Json.Tree
import PluginHost.Proofs.Json.Spacing

/-! # The tokens of a tree

`JsonTree.tokens` lists the tokens of a tree in the order of its text.  The tokens of an intact
tree lead to the state behind it, whatever containers wait for it (`foldl_tokens`).  For the way
back, `State.seen` says which tokens led to a state.  Every step adds the token that it reads
(`State.step_seen`), so when a text ends where its tree ends, its tokens are those of the tree
(`tokens_of_ofTokens`).

`JsonTree.Spells t payload` says that the payload is a text of the tree `t`: the words of its
tokens, with any white space around them.  The reader finds the tree in each of its texts
(`spells_iff`). -/
namespace PluginHost
namespace JsonTree
open JsonToken

/-- Parts with a comma between any two of them. -/
def separated (parts : List (List JsonToken)) : List JsonToken :=
  [JsonToken.comma].intercalate parts

mutual
/-- The tokens of a tree. -/
def tokens : JsonTree → List JsonToken
  | .scalar s => [.scalar s]
  | .array items _ => .openArray :: (separated (itemTokens items) ++ [.closeArray])
  | .object members _ => .openObject :: (separated (memberTokens members) ++ [.closeObject])
  | .broken => [.broken]

/-- The tokens of each item. -/
def itemTokens : List JsonTree → List (List JsonToken)
  | [] => []
  | item :: items => tokens item :: itemTokens items

/-- The tokens of each member. -/
def memberTokens : List (JsonToken × JsonTree) → List (List JsonToken)
  | [] => []
  | (name, value) :: members => (name :: .colon :: tokens value) :: memberTokens members
end

/-- Parts with a comma behind each of them. -/
def followed (parts : List (List JsonToken)) : List JsonToken := parts.flatMap (· ++ [.comma])

/-- Parts with a comma in front of each of them. -/
def preceded (parts : List (List JsonToken)) : List JsonToken := parts.flatMap (.comma :: ·)

theorem preceded_cons (part : List JsonToken) (parts : List (List JsonToken)) :
    preceded (part :: parts) = .comma :: (part ++ preceded parts) := by
  rw [preceded, List.flatMap_cons, List.cons_append]
  rfl

theorem separated_cons (part : List JsonToken) (parts : List (List JsonToken)) :
    separated (part :: parts) = part ++ preceded parts := by
  induction parts generalizing part with
  | nil => simp [separated, preceded]
  | cons next parts ih =>
    have hstep : separated (part :: next :: parts) =
        part ++ .comma :: separated (next :: parts) := by
      simp [separated, List.intercalate]
    rw [hstep, ih]
    rfl

theorem separated_concat (parts : List (List JsonToken)) (part : List JsonToken) :
    separated (parts ++ [part]) = followed parts ++ part := by
  cases parts with
  | nil => rw [List.nil_append, separated_cons, preceded, List.flatMap_nil, List.append_nil]; rfl
  | cons first parts =>
    rw [List.cons_append, separated_cons]
    induction parts generalizing first with
    | nil => simp [preceded, followed]
    | cons next parts ih =>
      have h := ih next
      simp only [preceded, followed, List.flatMap_cons, List.cons_append, List.append_assoc,
        List.nil_append] at h ⊢
      rw [h]

theorem separated_append_comma {parts : List (List JsonToken)} (h : parts ≠ []) :
    separated parts ++ [.comma] = followed parts := by
  obtain ⟨front, last, rfl⟩ := (List.eq_nil_or_concat parts).resolve_left h
  rw [List.concat_eq_append, separated_concat]
  simp [followed]

theorem itemTokens_append (front back : List JsonTree) :
    itemTokens (front ++ back) = itemTokens front ++ itemTokens back := by
  induction front with
  | nil => rfl
  | cons item front ih => rw [List.cons_append, itemTokens, itemTokens, ih, List.cons_append]

theorem memberTokens_append (front back : List (JsonToken × JsonTree)) :
    memberTokens (front ++ back) = memberTokens front ++ memberTokens back := by
  induction front with
  | nil => rfl
  | cons member front ih =>
    rw [List.cons_append, memberTokens, memberTokens, ih, List.cons_append]

/-! ## From the tokens to the tree -/

/-- Where a value is due, a token that ends no array starts one. -/
theorem step_value {token : JsonToken} (h : token ≠ .closeArray) (stack : List Frame)
    (mayClose : Bool) : State.step (.value stack mayClose) token = .start stack token := by
  rw [State.step]
  exact fun _ hend _ _ => h hend

/-- Where a member is due, a string is its name. -/
theorem step_member {name : JsonToken} (h : isName name = true) (stack : List Frame)
    (held : List (JsonToken × JsonTree)) (mayClose : Bool) :
    State.step (.member stack held mayClose) name = .colon stack held name := by
  unfold isName at h
  split at h
  · cases mayClose <;> rfl
  · cases h

mutual
/-- **The tokens of an intact tree lead to the state behind it.**  What the unfinished containers
hold already stands in reverse. -/
theorem foldl_tokens {t : JsonTree} (h : t.intact = true) (stack : List Frame) (mayClose : Bool)
    (ts : List JsonToken) :
    (t.tokens ++ ts).foldl State.step (.value stack mayClose) =
      ts.foldl State.step (.after t stack) := by
  match t with
  | .scalar s =>
    rw [tokens, List.singleton_append, List.foldl_cons, step_value (by nofun)]
    rfl
  | .array [] closed =>
    obtain rfl : closed = true := (Bool.and_eq_true_iff.mp h).1
    rw [tokens, List.cons_append, List.foldl_cons, step_value (by nofun)]
    rfl
  | .array (item :: items) closed =>
    obtain ⟨rfl, hall⟩ := Bool.and_eq_true_iff.mp h
    obtain ⟨hitem, hitems⟩ := Bool.and_eq_true_iff.mp hall
    rw [tokens, itemTokens, separated_cons, List.cons_append, List.foldl_cons,
      step_value (by nofun), List.append_assoc, List.append_assoc]
    exact (foldl_tokens hitem (.array [] :: stack) true _).trans
      (foldl_itemTokens hitems [item] stack ts)
  | .object [] closed =>
    obtain rfl : closed = true := (Bool.and_eq_true_iff.mp h).1
    rw [tokens, List.cons_append, List.foldl_cons, step_value (by nofun)]
    rfl
  | .object ((name, value) :: members) closed =>
    obtain ⟨rfl, hall⟩ := Bool.and_eq_true_iff.mp h
    obtain ⟨hfirst, hmembers⟩ := Bool.and_eq_true_iff.mp hall
    obtain ⟨hname, hvalue⟩ := Bool.and_eq_true_iff.mp hfirst
    rw [tokens, memberTokens, separated_cons, List.cons_append, List.foldl_cons,
      step_value (by nofun), List.append_assoc, List.append_assoc, List.cons_append,
      List.cons_append, List.foldl_cons, State.start, step_member hname, List.foldl_cons]
    exact (foldl_tokens hvalue (.object [] name :: stack) false _).trans
      (foldl_memberTokens hmembers [(name, value)] stack ts)

theorem foldl_itemTokens {items : List JsonTree} (h : allIntact items = true)
    (held : List JsonTree) (stack : List Frame) (ts : List JsonToken) :
    (preceded (itemTokens items) ++ ([JsonToken.closeArray] ++ ts)).foldl State.step
      (.comma stack (.array held)) =
      ts.foldl State.step (.after (.array (held.reverse ++ items) true) stack) := by
  match items with
  | [] =>
    rw [List.append_nil]
    rfl
  | item :: items =>
    obtain ⟨hitem, hitems⟩ := Bool.and_eq_true_iff.mp h
    rw [itemTokens, preceded_cons, List.cons_append, List.append_assoc, List.foldl_cons]
    refine (foldl_tokens hitem (.array held :: stack) false _).trans ?_
    refine (foldl_itemTokens hitems (item :: held) stack ts).trans ?_
    rw [List.reverse_cons, List.append_assoc, List.singleton_append]

theorem foldl_memberTokens {members : List (JsonToken × JsonTree)}
    (h : membersIntact members = true) (held : List (JsonToken × JsonTree)) (stack : List Frame)
    (ts : List JsonToken) :
    (preceded (memberTokens members) ++ ([JsonToken.closeObject] ++ ts)).foldl State.step
      (.comma stack (.object held)) =
      ts.foldl State.step (.after (.object (held.reverse ++ members) true) stack) := by
  match members with
  | [] =>
    rw [List.append_nil]
    rfl
  | (name, value) :: members =>
    obtain ⟨hfirst, hmembers⟩ := Bool.and_eq_true_iff.mp h
    obtain ⟨hname, hvalue⟩ := Bool.and_eq_true_iff.mp hfirst
    rw [memberTokens, preceded_cons, List.cons_append, List.append_assoc, List.foldl_cons,
      List.cons_append, List.cons_append, List.foldl_cons, State.step, step_member hname,
      List.foldl_cons]
    refine (foldl_tokens hvalue (.object held name :: stack) false _).trans ?_
    refine (foldl_memberTokens hmembers ((name, value) :: held) stack ts).trans ?_
    rw [List.reverse_cons, List.append_assoc, List.singleton_append]
end

/-- The tokens of an intact tree lead back to it. -/
theorem ofTokens_tokens {t : JsonTree} (h : t.intact = true) : ofTokens t.tokens = (t, true) := by
  have hread := foldl_tokens h [] false []
  rw [List.append_nil] at hread
  rw [ofTokens, hread]
  rfl

/-! ## From the tree to the tokens -/

/-- The tokens of an unfinished container up to the value that it waits for. -/
def Frame.tokens : Frame → List JsonToken
  | .array items => .openArray :: followed (itemTokens items.reverse)
  | .object members name =>
    .openObject :: (followed (memberTokens members.reverse) ++ [name, .colon])

/-- The tokens of a container up to its last value. -/
def Container.tokens : Container → List JsonToken
  | .array items => .openArray :: separated (itemTokens items.reverse)
  | .object members => .openObject :: separated (memberTokens members.reverse)

/-- The tokens of the unfinished containers, the innermost of which comes first. -/
def stackTokens : List Frame → List JsonToken
  | [] => []
  | frame :: stack => stackTokens stack ++ frame.tokens

/-- The tokens that led to a state. -/
def State.seen : State → List JsonToken
  | .value stack _ => stackTokens stack
  | .member stack members _ =>
    stackTokens stack ++ .openObject :: followed (memberTokens members.reverse)
  | .colon stack members name =>
    stackTokens stack ++ .openObject :: (followed (memberTokens members.reverse) ++ [name])
  | .comma stack container => stackTokens stack ++ container.tokens
  | .done tree _ => tree.tokens

/-- Whether a container holds nothing. -/
def Container.isEmpty : Container → Bool
  | .array items => items.isEmpty
  | .object members => members.isEmpty

/-- The states that a text leads to: an object may only end at once or behind a member, and a
comma is due behind something. -/
def State.Regular : State → Prop
  | .member _ members mayClose => mayClose = true → members = []
  | .comma _ container => container.isEmpty = false
  | _ => True

/-- A state in which nothing went wrong, and the tokens that led there. -/
def State.Leads (s : State) (tokens : List JsonToken) : Prop := s.Regular ∧ s.seen = tokens

/-- A state in which the text has broken off. -/
def State.Broken (s : State) : Prop := ∃ tree, s = .done tree false

theorem Frame.tokens_fill (frame : Frame) (tree : JsonTree) :
    (frame.fill tree).tokens = frame.tokens ++ tree.tokens := by
  cases frame with
  | array items =>
    rw [fill, Container.tokens, List.reverse_cons, itemTokens_append, itemTokens, itemTokens,
      separated_concat]
    rfl
  | object members name =>
    rw [fill, Container.tokens, List.reverse_cons, memberTokens_append, memberTokens, memberTokens,
      separated_concat, Frame.tokens, List.cons_append, List.append_assoc]
    rfl

theorem Frame.isEmpty_fill (frame : Frame) (tree : JsonTree) :
    (frame.fill tree).isEmpty = false := by
  cases frame <;> rfl

/-- Behind a value its tokens have been seen. -/
theorem State.leads_after (tree : JsonTree) (stack : List Frame) :
    (State.after tree stack).Leads (stackTokens stack ++ tree.tokens) := by
  cases stack with
  | nil => exact ⟨trivial, rfl⟩
  | cons frame stack =>
    refine ⟨frame.isEmpty_fill tree, ?_⟩
    rw [State.after, seen, frame.tokens_fill, stackTokens, List.append_assoc]

/-- A token that starts a value is seen, or breaks off. -/
theorem State.start_seen (stack : List Frame) (token : JsonToken) :
    (State.start stack token).Broken ∨
      (State.start stack token).Leads (stackTokens stack ++ [token]) := by
  unfold State.start
  split
  · exact .inr (leads_after _ _)
  · exact .inr ⟨trivial, rfl⟩
  · exact .inr ⟨fun _ => rfl, rfl⟩
  · exact .inl ⟨_, rfl⟩

/-- Behind a comma a container waits for one more value. -/
theorem Container.tokens_append_comma {items : List JsonTree} (h : items ≠ []) :
    (Container.array items).tokens ++ [.comma] = (Frame.array items).tokens := by
  obtain ⟨item, before, rfl⟩ := List.exists_cons_of_ne_nil h
  have hne : itemTokens (item :: before).reverse ≠ [] := by
    rw [List.reverse_cons, itemTokens_append]
    exact List.append_ne_nil_of_right_ne_nil _ (List.cons_ne_nil _ _)
  rw [Container.tokens, Frame.tokens, List.cons_append, separated_append_comma hne]

theorem Container.members_append_comma {members : List (JsonToken × JsonTree)} (h : members ≠ []) :
    (Container.object members).tokens ++ [.comma] =
      .openObject :: followed (memberTokens members.reverse) := by
  obtain ⟨member, before, rfl⟩ := List.exists_cons_of_ne_nil h
  have hne : memberTokens (member :: before).reverse ≠ [] := by
    rw [List.reverse_cons, memberTokens_append]
    exact List.append_ne_nil_of_right_ne_nil _ (List.cons_ne_nil _ _)
  rw [Container.tokens, List.cons_append, separated_append_comma hne]

/-- **One token** is added to those that were seen, or the text breaks off. -/
theorem State.step_seen {s : State} (h : s.Regular) (token : JsonToken) :
    (s.step token).Broken ∨ (s.step token).Leads (s.seen ++ [token]) := by
  have hafter {tree : JsonTree} {stack : List Frame} {seen : List JsonToken}
      (hseen : stackTokens stack ++ tree.tokens = seen) :
      (State.after tree stack).Broken ∨ (State.after tree stack).Leads seen :=
    .inr (hseen ▸ leads_after tree stack)
  unfold State.step
  split
  case h_1 stack =>
    refine hafter ?_
    rw [seen, stackTokens, List.append_assoc]
    rfl
  case h_2 => exact start_seen _ _
  case h_3 stack members =>
    obtain rfl : members = [] := h rfl
    refine hafter ?_
    rw [seen, List.append_assoc]
    rfl
  case h_4 => exact .inl ⟨_, rfl⟩
  case h_5 stack members _ _ _ =>
    refine .inr ⟨trivial, ?_⟩
    rw [seen, seen, List.append_assoc, List.cons_append]
  case h_6 stack members name =>
    refine .inr ⟨trivial, ?_⟩
    rw [seen, seen, stackTokens, Frame.tokens, List.append_assoc, List.cons_append,
      List.append_assoc]
    rfl
  case h_7 => exact .inl ⟨_, rfl⟩
  case h_8 stack items =>
    have hne : items ≠ [] := by
      rintro rfl
      cases h
    refine .inr ⟨trivial, ?_⟩
    rw [seen, seen, stackTokens, List.append_assoc, Container.tokens_append_comma hne]
  case h_9 stack members =>
    have hne : members ≠ [] := by
      rintro rfl
      cases h
    refine .inr ⟨Bool.noConfusion, ?_⟩
    rw [seen, seen, List.append_assoc, Container.members_append_comma hne]
  case h_10 stack items =>
    refine hafter ?_
    rw [seen, List.append_assoc]
    rfl
  case h_11 stack members =>
    refine hafter ?_
    rw [seen, List.append_assoc]
    rfl
  case h_12 => exact .inl ⟨_, rfl⟩
  case h_13 => exact .inl ⟨_, rfl⟩

/-- Nothing mends a text that has broken off. -/
theorem State.Broken.foldl {s : State} (h : s.Broken) (tokens : List JsonToken) :
    (tokens.foldl State.step s).Broken := by
  induction tokens generalizing s with
  | nil => exact h
  | cons token tokens ih =>
    obtain ⟨tree, rfl⟩ := h
    exact ih ⟨tree, rfl⟩

/-- **All tokens** have been seen in the end, or the text has broken off. -/
theorem State.foldl_seen {s : State} (h : s.Regular) (tokens : List JsonToken) :
    (tokens.foldl State.step s).Broken ∨
      (tokens.foldl State.step s).Leads (s.seen ++ tokens) := by
  induction tokens generalizing s with
  | nil => exact .inr ⟨h, (List.append_nil _).symm⟩
  | cons token tokens ih =>
    rw [List.foldl_cons, List.append_cons]
    obtain hbroken | ⟨hregular, hseen⟩ := step_seen h token
    · exact .inl (hbroken.foldl tokens)
    · rw [← hseen]
      exact ih hregular

/-- A text that ends where its tree ends consists of the tokens of the tree. -/
theorem tokens_of_ofTokens {read : List JsonToken} {t : JsonTree} (h : ofTokens read = (t, true)) :
    read = t.tokens := by
  have hfinal := State.foldl_seen (s := .value [] false) trivial read
  unfold ofTokens at h
  generalize read.foldl State.step (.value [] false) = final at h hfinal
  cases final with
  | done tree ended =>
    obtain ⟨rfl, rfl⟩ := Prod.mk.inj h
    obtain ⟨other, hbroken⟩ | ⟨-, hseen⟩ := hfinal
    · cases hbroken
    · exact hseen.symm
  | value => cases (Prod.mk.inj h).2
  | member => cases (Prod.mk.inj h).2
  | colon => cases (Prod.mk.inj h).2
  | comma => cases (Prod.mk.inj h).2

/-! ## Texts of a tree -/

theorem parted_append_preceded {part : List JsonToken} {parts : List (List JsonToken)}
    (hpart : Parted part) (hparts : ∀ other ∈ parts, Parted other) :
    Parted (part ++ preceded parts) := by
  induction parts generalizing part with
  | nil => simpa [preceded] using hpart
  | cons next parts ih =>
    obtain ⟨hnext, hothers⟩ := List.forall_mem_cons.mp hparts
    exact hpart.append_cons (ih hnext hothers) rfl

/-- Brackets part what stands between them from what stands around them. -/
theorem parted_bracket {front back : JsonToken} (hfront : front.isScalar = false)
    (hback : back.isScalar = false) {parts : List (List JsonToken)}
    (hparts : ∀ part ∈ parts, Parted part) : Parted (front :: (separated parts ++ [back])) := by
  have hinside : Parted (separated parts) := by
    cases parts with
    | nil => exact .nil
    | cons part parts =>
      obtain ⟨hpart, hothers⟩ := List.forall_mem_cons.mp hparts
      rw [separated_cons]
      exact parted_append_preceded hpart hothers
  exact Parted.append_cons .nil (hinside.append_cons .nil hback) hfront

mutual
/-- No two scalars follow each other in a tree. -/
theorem parted_tokens (t : JsonTree) : Parted t.tokens := by
  match t with
  | .scalar s => exact parted_singleton _
  | .array items _ => exact parted_bracket rfl rfl (parted_itemTokens items)
  | .object members _ => exact parted_bracket rfl rfl (parted_memberTokens members)
  | .broken => exact parted_singleton _

theorem parted_itemTokens (items : List JsonTree) : ∀ part ∈ itemTokens items, Parted part := by
  match items with
  | [] => exact fun _ h => absurd h List.not_mem_nil
  | item :: items => exact List.forall_mem_cons.mpr ⟨parted_tokens item, parted_itemTokens items⟩

theorem parted_memberTokens (members : List (JsonToken × JsonTree)) :
    ∀ part ∈ memberTokens members, Parted part := by
  match members with
  | [] => exact fun _ h => absurd h List.not_mem_nil
  | (name, value) :: members =>
    exact List.forall_mem_cons.mpr
      ⟨(parted_singleton name).append_cons (parted_tokens value) rfl, parted_memberTokens members⟩
end

theorem mem_separated {token : JsonToken} {parts : List (List JsonToken)}
    (h : token ∈ separated parts) : token = .comma ∨ ∃ part ∈ parts, token ∈ part := by
  cases parts with
  | nil => cases h
  | cons part parts =>
    rw [separated_cons, List.mem_append, preceded, List.mem_flatMap] at h
    obtain hpart | ⟨other, hother, hmem⟩ := h
    · exact .inr ⟨part, List.mem_cons_self, hpart⟩
    · obtain rfl | hmem := List.mem_cons.mp hmem
      · exact .inl rfl
      · exact .inr ⟨other, List.mem_cons_of_mem _ hother, hmem⟩

/-- What breaks off stands between two brackets in some part. -/
theorem not_broken_of_bracket {front back : JsonToken} (hfront : front ≠ .broken)
    (hback : back ≠ .broken) {parts : List (List JsonToken)}
    (hparts : ∀ part ∈ parts, JsonToken.broken ∉ part) :
    JsonToken.broken ∉ front :: (separated parts ++ [back]) := by
  intro h
  obtain h | h := List.mem_cons.mp h
  · exact hfront h.symm
  obtain h | h := List.mem_append.mp h
  · obtain h | ⟨part, hpart, hmem⟩ := mem_separated h
    · cases h
    · exact hparts part hpart hmem
  · exact hback (List.mem_singleton.mp h).symm

mutual
/-- An intact tree breaks off nowhere. -/
theorem broken_not_mem {t : JsonTree} (h : t.intact = true) : JsonToken.broken ∉ t.tokens := by
  match t with
  | .scalar s => exact fun hmem => by cases List.mem_singleton.mp hmem
  | .array items closed =>
    exact not_broken_of_bracket (by nofun) (by nofun)
      (broken_not_mem_items (Bool.and_eq_true_iff.mp h).2)
  | .object members closed =>
    exact not_broken_of_bracket (by nofun) (by nofun)
      (broken_not_mem_members (Bool.and_eq_true_iff.mp h).2)
  | .broken => cases h

theorem broken_not_mem_items {items : List JsonTree} (h : allIntact items = true) :
    ∀ part ∈ itemTokens items, JsonToken.broken ∉ part := by
  match items with
  | [] => exact fun _ hmem => absurd hmem List.not_mem_nil
  | item :: items =>
    obtain ⟨hitem, hitems⟩ := Bool.and_eq_true_iff.mp h
    exact List.forall_mem_cons.mpr ⟨broken_not_mem hitem, broken_not_mem_items hitems⟩

theorem broken_not_mem_members {members : List (JsonToken × JsonTree)}
    (h : membersIntact members = true) :
    ∀ part ∈ memberTokens members, JsonToken.broken ∉ part := by
  match members with
  | [] => exact fun _ hmem => absurd hmem List.not_mem_nil
  | (name, value) :: members =>
    obtain ⟨hfirst, hmembers⟩ := Bool.and_eq_true_iff.mp h
    obtain ⟨hname, hvalue⟩ := Bool.and_eq_true_iff.mp hfirst
    refine List.forall_mem_cons.mpr ⟨fun hmem => ?_, broken_not_mem_members hmembers⟩
    obtain rfl | hmem := List.mem_cons.mp hmem
    · cases hname
    · obtain hcolon | hmem := List.mem_cons.mp hmem
      · cases hcolon
      · exact broken_not_mem hvalue hmem
end

/-- The payload is a text of the tree: its words, with any white space around them. -/
def Spells (t : JsonTree) (payload : List UInt8) : Prop :=
  t.intact = true ∧ SpellsTokens t.tokens (charsOfBytes payload)

/-- A payload that is read as the tokens of an intact tree is a text of it. -/
theorem spells_of_tokens {t : JsonTree} {payload : List UInt8} (hintact : t.intact = true)
    (h : JsonToken.ofPayload payload = t.tokens) : t.Spells payload := by
  refine ⟨hintact, h ▸ spells_ofChars _ ?_⟩
  rw [← JsonToken.ofPayload, h]
  exact broken_not_mem hintact

/-- **The reader finds a tree in just the texts that spell it.** -/
theorem spells_iff {t : JsonTree} {payload : List UInt8} : t.Spells payload ↔
    t.intact = true ∧ ofTokens (JsonToken.ofPayload payload) = (t, true) := by
  constructor
  · rintro ⟨hintact, hspells⟩
    rw [JsonToken.ofPayload, ofChars_of_spells hspells (parted_tokens t)]
    exact ⟨hintact, ofTokens_tokens hintact⟩
  · rintro ⟨hintact, hread⟩
    exact spells_of_tokens hintact (tokens_of_ofTokens hread)

/-- A payload is a text of one tree only. -/
theorem Spells.unique {t t' : JsonTree} {payload : List UInt8} (h : t.Spells payload)
    (h' : t'.Spells payload) : t = t' :=
  congrArg Prod.fst ((spells_iff.mp h).2.symm.trans (spells_iff.mp h').2)

end JsonTree
end PluginHost

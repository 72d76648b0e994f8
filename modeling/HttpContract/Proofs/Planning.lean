import HttpContract.Proofs.Pointwise
import HttpContract.Schema.Engine

/-!
# Plans do not depend on places

The place of a schema only occurs in errors. A schema that can be compiled at one place has the same
plan and the same document for its evaluator at every other (`agrees_node`).
-/

namespace HttpContract

/-- Where the first computation gives a result, the second gives the same. -/
def Agrees {ε α : Type} (x y : Except ε α) : Prop := ∀ a, x = .ok a → y = .ok a

namespace Agrees

variable {ε α β : Type}

theorem refl (x : Except ε α) : Agrees x x := fun _ h => h

theorem error (err : ε) (y : Except ε α) : Agrees (.error err) y := by
  intro a h
  cases h

theorem bind {x y : Except ε α} {f g : α → Except ε β} (h : Agrees x y)
    (hfg : ∀ a, Agrees (f a) (g a)) : Agrees (x >>= f) (y >>= g) := by
  intro b hb
  cases hx : x with
  | error err =>
    rw [hx] at hb
    cases hb
  | ok a =>
    rw [hx] at hb
    rw [h a hx]
    exact hfg a b hb

end Agrees

namespace EvaluationForm

theorem agrees_requireDefined (defined : List Bool) (handle : Nat) (path path' : String) :
    Agrees (requireDefined defined handle path) (requireDefined defined handle path') := by
  unfold requireDefined
  split
  · exact .refl _
  · exact .error _ _

mutual

theorem agrees_rewrite (defined : List Bool) : ∀ (v : Json) (path path' : String) (inPlace : Bool),
    Agrees (rewrite defined v path inPlace) (rewrite defined v path' inPlace)
  | .obj members, path, path', inPlace => by
    rw [rewrite, rewrite]
    cases Marker.ofMembers? members with
    | none =>
      exact (agrees_rewriteMembers defined members path path' inPlace).bind (fun _ => .refl _)
    | some m =>
      cases m with
      | error err => exact .error _ _
      | ok marker =>
        cases marker with
        | inline f => exact agrees_rewriteTarget defined members path path' inPlace
        | deferred handle =>
          exact (agrees_requireDefined defined handle path path').bind (fun _ => .refl _)
  | .arr items, path, path', inPlace => by
    rw [rewrite, rewrite]
    exact (agrees_rewriteItems defined items path path' 0 inPlace).bind (fun _ => .refl _)
  | .null, _, _, _ => .refl _
  | .bool _, _, _, _ => .refl _
  | .num _, _, _, _ => .refl _
  | .str _, _, _, _ => .refl _
termination_by structural v => v

theorem agrees_rewriteTarget (defined : List Bool) : ∀ (members : List (String × Json))
    (path path' : String) (inPlace : Bool),
    Agrees (rewriteTarget defined members path inPlace)
      (rewriteTarget defined members path' inPlace)
  | [], _, _, _ => .refl _
  | (_, inner) :: _, _, _, inPlace => agrees_rewrite defined inner _ _ inPlace
termination_by structural members => members

theorem agrees_rewriteMembers (defined : List Bool) : ∀ (members : List (String × Json))
    (path path' : String) (inPlace : Bool),
    Agrees (rewriteMembers defined members path inPlace)
      (rewriteMembers defined members path' inPlace)
  | [], _, _, _ => .refl _
  | (key, value) :: rest, path, path', inPlace => by
    have hrest := agrees_rewriteMembers defined rest path path' inPlace
    rw [rewriteMembers, rewriteMembers]
    split
    · exact hrest.bind (fun _ => .refl _)
    · exact (agrees_rewrite defined value _ _ _).bind (fun _ => hrest.bind (fun _ => .refl _))
termination_by structural members => members

theorem agrees_rewriteItems (defined : List Bool) : ∀ (items : List Json) (path path' : String)
    (index : Nat) (inPlace : Bool),
    Agrees (rewriteItems defined items path index inPlace)
      (rewriteItems defined items path' index inPlace)
  | [], _, _, _, _ => .refl _
  | item :: rest, path, path', index, inPlace => by
    rw [rewriteItems, rewriteItems]
    exact (agrees_rewrite defined item _ _ inPlace).bind (fun _ =>
      (agrees_rewriteItems defined rest path path' (index + 1) inPlace).bind (fun _ => .refl _))
termination_by structural items => items

end

end EvaluationForm

namespace Planning

variable (c : Context)

theorem agrees_invalid {α : Type} (path : String) (reason : InvalidReason)
    (y : Except CompileError α) : Agrees (invalid path reason) y := .error _ _

theorem agrees_evaluator (document : Json) (path path' : String) :
    Agrees (evaluator c document path) (evaluator c document path') := by
  unfold evaluator
  split
  · exact .refl _
  · exact agrees_invalid _ _ _

theorem agrees_requirePattern (source path path' : String) :
    Agrees (requirePattern source path) (requirePattern source path') := by
  unfold requirePattern
  split
  · exact .refl _
  · exact agrees_invalid _ _ _

/-- Readings that agree wherever they give results. -/
structure ReadingsAgree (r r' : Readings) : Prop where
  node : Agrees (r.node ()) (r'.node ())
  entries : ∀ patterns reason, Agrees (r.entries patterns reason) (r'.entries patterns reason)
  list : Agrees (r.list ()) (r'.list ())

theorem agrees_keyword {r r' : Readings} (h : ReadingsAgree r r') (k : String) (v : Json)
    (here here' : String) (plan : Plan Node) :
    Agrees (keyword c k v here r plan) (keyword c k v here' r' plan) := by
  unfold keyword
  split
  · split
    · exact .refl _
    · exact agrees_invalid _ _ _
  · exact .refl _
  · exact .refl _
  · exact (h.entries _ _).bind (fun _ => .refl _)
  · exact (h.entries _ _).bind (fun _ => .refl _)
  · split
    · exact .refl _
    · exact .refl _
    · exact h.node.bind (fun _ => .refl _)
  · split
    · exact h.list.bind (fun _ => .refl _)
    · exact h.node.bind (fun _ => .refl _)
  · exact h.list.bind (fun _ => .refl _)
  · exact h.list.bind (fun _ => .refl _)
  · split
    · exact .refl _
    · exact (EvaluationForm.agrees_rewrite c.defined v _ _ _).bind (fun _ => .refl _)

-- The mutual recursion is that of planning itself; in every case only errors mention the place.
mutual

/-- A schema has the same plan at every place. -/
theorem agrees_node : ∀ (v : Json) (path path' : String), Agrees (node c v path) (node c v path')
  | .bool _, _, _ => .refl _
  | .obj members, path, path' => by
    rw [node, node]
    cases Marker.ofMembers? members with
    | none =>
      exact (agrees_keywords members path path' Plan.empty).bind (fun _ => .refl _)
    | some m =>
      cases m with
      | error err => exact .error _ _
      | ok marker =>
        cases marker with
        | inline f => exact agrees_target members _ _
        | deferred handle =>
          exact (EvaluationForm.agrees_requireDefined c.defined handle path path').bind
            (fun _ => .refl _)
  | .arr _, _, _ => agrees_invalid _ _ _
  | .null, _, _ => agrees_invalid _ _ _
  | .num _, _, _ => agrees_invalid _ _ _
  | .str _, _, _ => agrees_invalid _ _ _
termination_by structural v => v

theorem agrees_target : ∀ (members : List (String × Json)) (path path' : String),
    Agrees (target c members path) (target c members path')
  | [], _, _ => agrees_invalid _ _ _
  | (_, inner) :: _, path, path' => by
    rw [target, target]
    exact (agrees_node inner path path').bind (fun _ =>
      (agrees_evaluator c _ path path').bind (fun _ => .refl _))
termination_by structural members => members

theorem agrees_keywords : ∀ (members : List (String × Json)) (path path' : String)
    (plan : Plan Node), Agrees (keywords c members path plan) (keywords c members path' plan)
  | [], _, _, _ => .refl _
  | (k, v) :: rest, path, path', plan => by
    rw [keywords, keywords]
    have hreadings : ReadingsAgree
        ⟨fun _ => node c v (Json.Pointer.child path k),
          fun patterns reason => entries c v patterns reason (Json.Pointer.child path k),
          fun _ => list c v (Json.Pointer.child path k)⟩
        ⟨fun _ => node c v (Json.Pointer.child path' k),
          fun patterns reason => entries c v patterns reason (Json.Pointer.child path' k),
          fun _ => list c v (Json.Pointer.child path' k)⟩ :=
      ⟨agrees_node v _ _, fun patterns reason => agrees_entries v patterns reason _ _,
        agrees_list v _ _⟩
    exact (agrees_keyword c hreadings k v _ _ plan).bind (fun _ =>
      (agrees_keywords rest path path' _).bind (fun _ => .refl _))
termination_by structural members => members

theorem agrees_entries : ∀ (v : Json) (patterns : Bool) (reason : InvalidReason)
    (here here' : String),
    Agrees (entries c v patterns reason here) (entries c v patterns reason here')
  | .obj members, patterns, reason, here, here' => by
    rw [entries, entries]
    exact (agrees_memberNodes members patterns here here').bind (fun _ => .refl _)
  | .arr _, _, _, _, _ => agrees_invalid _ _ _
  | .null, _, _, _, _ => agrees_invalid _ _ _
  | .bool _, _, _, _, _ => agrees_invalid _ _ _
  | .num _, _, _, _, _ => agrees_invalid _ _ _
  | .str _, _, _, _, _ => agrees_invalid _ _ _
termination_by structural v => v

theorem agrees_memberNodes : ∀ (members : List (String × Json)) (patterns : Bool)
    (here here' : String),
    Agrees (memberNodes c members patterns here) (memberNodes c members patterns here')
  | [], _, _, _ => .refl _
  | (name, v) :: rest, patterns, here, here' => by
    rw [memberNodes, memberNodes]
    -- what follows the check of the pattern is the same for both kinds of entries
    have hrest : Agrees _ _ := (agrees_node v (Json.Pointer.child here name)
      (Json.Pointer.child here' name)).bind (fun x =>
        (agrees_memberNodes rest patterns here here').bind (fun y =>
          .refl (pure ((name, x.1) :: y.1, (name, x.2) :: y.2) : Except CompileError _)))
    dsimp only
    split
    · exact (agrees_requirePattern name _ _).bind (fun _ => hrest)
    · exact hrest
termination_by structural members => members

theorem agrees_list : ∀ (v : Json) (here here' : String), Agrees (list c v here) (list c v here')
  | .arr xs, here, here' => by
    rw [list, list]
    exact (agrees_itemNodes xs here here' 0).bind (fun _ => .refl _)
  | .obj _, _, _ => agrees_invalid _ _ _
  | .null, _, _ => agrees_invalid _ _ _
  | .bool _, _, _ => agrees_invalid _ _ _
  | .num _, _, _ => agrees_invalid _ _ _
  | .str _, _, _ => agrees_invalid _ _ _
termination_by structural v => v

theorem agrees_itemNodes : ∀ (xs : List Json) (here here' : String) (index : Nat),
    Agrees (itemNodes c xs here index) (itemNodes c xs here' index)
  | [], _, _, _ => .refl _
  | v :: rest, here, here', index => by
    rw [itemNodes, itemNodes]
    exact (agrees_node v _ _).bind (fun _ =>
      (agrees_itemNodes rest here here' (index + 1)).bind (fun _ => .refl _))
termination_by structural xs => xs

end

/-! ## One branch -/

/-- The schema that demands a fragment as the only branch of `allOf`. -/
def singly (f : Fragment) : Fragment := .ofMembers [("allOf", .arr [f.document])]

/-- The plan whose only branch is a node. -/
def singleBranch (n : Node) : Plan Node := { Plan.empty with allOf := [n] }

/-- Compiling gives the node of a schema together with an evaluator for the document that goes with
it. -/
theorem evaluator_of_compile {o : Options} {v : Json} {path : String} {s : CompiledSchema}
    (h : compile c o v path = .ok s) : ∃ document,
      node c v path = .ok (s.root, document) ∧ evaluator c document path = .ok s.evaluator := by
  -- whether keywords are checked does not matter once the check has passed
  have hunchecked : compileUnchecked c v path = .ok s := by
    unfold compile at h
    split at h
    · rcases bind_eq_ok h with ⟨_, -, h⟩
      exact h
    · exact h
  rcases bind_eq_ok hunchecked with ⟨x, hx, h⟩
  rcases bind_eq_ok h with ⟨e, he, h⟩
  cases h
  exact ⟨x.2, hx, he⟩

/-- A schema of branches is planned as its branches are. -/
theorem node_allOf {xs : List Json} {nodes : List Node} {document : Json} {path : String}
    (h : list c (.arr xs) (Json.Pointer.child path "allOf") = .ok (nodes, document)) :
    node c (.obj [("allOf", .arr xs)]) path =
      .ok (.plan { Plan.empty with allOf := nodes }, .obj [("allOf", document)]) := by
  have hkeywords : keywords c [("allOf", .arr xs)] path Plan.empty =
      .ok ({ Plan.empty with allOf := nodes }, [("allOf", document)]) := by
    simp only [keywords, keyword, h]
    rfl
  have hmarker : Marker.ofMembers? [("allOf", .arr xs)] = none := by
    simp [Marker.ofMembers?, Marker.key, Fields.get?]
  rw [node, hmarker]
  simp only [hkeywords]
  rfl

theorem node_singly {f : Fragment} {n : Node} {document : Json} {path : String}
    (h : node c f.document path = .ok (n, document)) (path' : String) :
    node c (singly f).document path' =
      .ok (.plan (singleBranch n), .obj [("allOf", .arr [document])]) := by
  have hitem := agrees_node c f.document path
    (Json.Pointer.childIndex (Json.Pointer.child path' "allOf") 0) _ h
  refine node_allOf c ?_
  rw [list, itemNodes, hitem]
  rfl

/-- The plan of a fragment as the only branch of `allOf`. -/
theorem root_singly {e : Engine} {f : Fragment} {s s' : CompiledSchema}
    (h : e.compile f = .ok s) (h' : e.compile (singly f) = .ok s') :
    s'.root = .plan (singleBranch s.root) := by
  rcases evaluator_of_compile e.context h with ⟨document, hnode, -⟩
  rcases evaluator_of_compile e.context h' with ⟨document', hnode', -⟩
  have heq := hnode'.symm.trans (node_singly e.context hnode "")
  exact congrArg Prod.fst (Except.ok.inj heq)

end Planning

end HttpContract

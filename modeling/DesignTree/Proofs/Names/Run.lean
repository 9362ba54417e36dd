import DesignTree.Proofs.Names.Table
/-!
# DesignTree.Proofs.Names.Run

Runs of requests on one name table.

A run starts with a fresh table and serves requests to intern, get and resolve, in any order;
interning may fail in it. What the table knows at any point of the run is what was interned before
that point, and the empty text that it held from the start (`resolve_tableAt_iff`,
`get?_tableAt_iff`). This is an induction on the run with one case per kind of request, and all
that is said about whole runs follows from it.
-/

namespace DesignTree

/-- A request to a name table. -/
inductive NameRequest
  | intern (text : String) (cls : CaseClass)
  | get (text : String) (cls : CaseClass)
  | resolve (name : Name)
  deriving DecidableEq

/-- The answer to a request. -/
inductive NameReply
  | interned (outcome : Except NameError Name)
  | found (name : Option Name)
  | resolved (outcome : Except NameError String)

namespace NameTable

/-- Serves one request. A table that cannot intern a text stays as it is. -/
def serve (table : NameTable) : NameRequest → NameReply × NameTable
  | .intern text cls =>
    match table.intern text cls with
    | .ok (name, after) => (.interned (.ok name), after)
    | .error e => (.interned (.error e), table)
  | .get text cls => (.found (table.get? text cls), table)
  | .resolve name => (.resolved (table.resolve name), table)

/-- The table after a list of requests. -/
def serveAll (table : NameTable) : List NameRequest → NameTable
  | [] => table
  | request :: rest => (table.serve request).2.serveAll rest

/-- The table at a point of a run that starts with a fresh one: before the request there. -/
def tableAt (requests : List NameRequest) (point : Nat) : NameTable :=
  empty.serveAll (requests.take point)

/-- The request at a point of the run is to intern a text in a class, and its answer is a
name. -/
def InternedAt (requests : List NameRequest) (point : Nat) (text : String) (cls : CaseClass)
    (name : Name) : Prop :=
  requests[point]? = some (.intern text cls) ∧
    ((tableAt requests point).serve (.intern text cls)).1 = .interned (.ok name)

/-- Before a point of the run the name was issued for a text in a class; that of the empty text
was so from the start. -/
def IssuedBefore (requests : List NameRequest) (point : Nat) (text : String) (cls : CaseClass)
    (name : Name) : Prop :=
  (text = "" ∧ cls = .insensitive ∧ name = .empty) ∨
    ∃ earlier < point, InternedAt requests earlier text cls name

variable {requests : List NameRequest} {point : Nat} {text : String} {cls : CaseClass}
  {name : Name}

/-! ### One step -/

theorem serveAll_append (table : NameTable) (front back : List NameRequest) :
    table.serveAll (front ++ back) = (table.serveAll front).serveAll back := by
  induction front generalizing table with
  | nil => rfl
  | cons request rest ih => exact ih _

/-- From one point of a run to the next. -/
theorem tableAt_succ :
    tableAt requests (point + 1) =
      match requests[point]? with
      | some request => ((tableAt requests point).serve request).2
      | none => tableAt requests point := by
  rw [tableAt, List.take_add_one, serveAll_append, ← tableAt]
  cases requests[point]? <;> rfl

/-- Only a request to intern issues a name, and only if the table has room. -/
theorem internedAt_iff {request : NameRequest} (h : requests[point]? = some request) :
    InternedAt requests point text cls name ↔ request = .intern text cls ∧
      ∃ after, (tableAt requests point).intern text cls = .ok (name, after) := by
  rw [InternedAt, h, Option.some.injEq]
  refine and_congr_right fun _ => ?_
  cases hintern : (tableAt requests point).intern text cls with
  | ok result => simp [serve, hintern, Prod.ext_iff]
  | error e => simp [serve, hintern]

theorem issuedBefore_zero :
    IssuedBefore requests 0 text cls name ↔ text = "" ∧ cls = .insensitive ∧ name = .empty := by
  simp [IssuedBefore]

theorem issuedBefore_succ :
    IssuedBefore requests (point + 1) text cls name ↔
      IssuedBefore requests point text cls name ∨ InternedAt requests point text cls name := by
  unfold IssuedBefore
  rw [or_assoc]
  refine or_congr_right ⟨?_, ?_⟩
  · rintro ⟨earlier, hlt, h⟩
    rcases Nat.lt_succ_iff_lt_or_eq.mp hlt with before | rfl
    · exact .inl ⟨earlier, before, h⟩
    · exact .inr h
  · rintro (⟨earlier, hlt, h⟩ | h)
    · exact ⟨earlier, Nat.lt_succ_of_lt hlt, h⟩
    · exact ⟨point, Nat.lt_succ_self point, h⟩

/-- A request that issues no name adds nothing to what was issued. -/
theorem issuedBefore_succ_of_forall_not (h : ∀ text cls name,
      ¬ InternedAt requests point text cls name) :
    IssuedBefore requests (point + 1) text cls name ↔
      IssuedBefore requests point text cls name := by
  rw [issuedBefore_succ, or_iff_left (h text cls name)]

/-! ### The table at a point -/

/-- The table is well-formed, and resolves what was issued before the point. -/
structure Reflects (requests : List NameRequest) (point : Nat) (table : NameTable) : Prop where
  wellFormed : table.WellFormed
  class_eq : ∀ text cls name, IssuedBefore requests point text cls name → name.caseClass = cls
  resolve_iff : ∀ name text, table.resolve name = .ok text ↔
    ∃ cls, IssuedBefore requests point text cls name

/-- A request that changes neither the table nor what was issued. -/
theorem Reflects.skip {table : NameTable} (reflects : Reflects requests point table)
    (h : ∀ text cls name, ¬ InternedAt requests point text cls name) :
    Reflects requests (point + 1) table where
  wellFormed := reflects.wellFormed
  class_eq text cls name issued :=
    reflects.class_eq text cls name ((issuedBefore_succ_of_forall_not h).mp issued)
  resolve_iff name text := by
    simp only [issuedBefore_succ_of_forall_not h, reflects.resolve_iff name text]

/-- A request that interns a text. -/
theorem Reflects.intern {table after : NameTable} (reflects : Reflects requests point table)
    (h : ∀ t c n, InternedAt requests point t c n ↔ t = text ∧ c = cls ∧ n = name)
    (interns : table.Interns text cls name after) : Reflects requests (point + 1) after where
  wellFormed := interns.wellFormed
  class_eq t c n issued := by
    rcases issuedBefore_succ.mp issued with before | now
    · exact reflects.class_eq t c n before
    · obtain ⟨rfl, rfl, rfl⟩ := (h t c n).mp now
      exact interns.class_eq
  resolve_iff n t := by
    rw [interns.resolve_iff, reflects.resolve_iff]
    simp only [issuedBefore_succ, h, exists_or]
    refine or_congr_right ⟨?_, ?_⟩
    · rintro ⟨rfl, rfl⟩
      exact ⟨cls, rfl, rfl, rfl⟩
    · rintro ⟨-, rfl, -, rfl⟩
      exact ⟨rfl, rfl⟩

theorem reflects_tableAt (requests : List NameRequest) (point : Nat) :
    Reflects requests point (tableAt requests point) := by
  induction point with
  | zero =>
    refine ⟨wellFormed_empty, fun text cls name issued => ?_, fun name text => ?_⟩
    · obtain ⟨-, rfl, rfl⟩ := issuedBefore_zero.mp issued
      rfl
    · rw [tableAt, List.take_zero, serveAll, resolve_empty_iff]
      simp [issuedBefore_zero, and_comm]
  | succ point ih =>
    rw [tableAt_succ]
    split
    next request hrequest =>
      have issues := fun t c n => @internedAt_iff requests point t c n request hrequest
      cases request with
      | intern text cls =>
        cases hintern : (tableAt requests point).intern text cls with
        | ok result =>
          simp only [serve, hintern]
          refine ih.intern (fun t c n => ?_) (interns_of_intern ih.wellFormed hintern)
          rw [issues, NameRequest.intern.injEq]
          constructor
          · rintro ⟨⟨rfl, rfl⟩, after, hafter⟩
            rw [hintern] at hafter
            cases hafter
            exact ⟨rfl, rfl, rfl⟩
          · rintro ⟨rfl, rfl, rfl⟩
            exact ⟨⟨rfl, rfl⟩, result.2, hintern⟩
        | error e =>
          simp only [serve, hintern]
          refine ih.skip fun t c n => ?_
          rw [issues]
          rintro ⟨hsame, after, hafter⟩
          cases hsame
          rw [hintern] at hafter
          cases hafter
      | get text cls => exact ih.skip fun t c n => by simp [issues]
      | resolve name => exact ih.skip fun t c n => by simp [issues]
    next hrequest => exact ih.skip fun t c n => by simp [InternedAt, hrequest]

/-- What a table resolves at a point of a run. -/
theorem resolve_tableAt_iff :
    (tableAt requests point).resolve name = .ok text ↔
      IssuedBefore requests point text name.caseClass name := by
  have reflects := reflects_tableAt requests point
  rw [reflects.resolve_iff]
  constructor
  · rintro ⟨cls, issued⟩
    exact (reflects.class_eq text cls name issued).symm ▸ issued
  · intro issued
    exact ⟨name.caseClass, issued⟩

/-- What a table finds at a point of a run. -/
theorem get?_tableAt_iff :
    (tableAt requests point).get? text cls = some name ↔
      IssuedBefore requests point text cls name := by
  have reflects := reflects_tableAt requests point
  rw [get?_eq_some_iff reflects.wellFormed, resolve_tableAt_iff]
  constructor
  · rintro ⟨issued, rfl⟩
    exact issued
  · intro issued
    obtain rfl := reflects.class_eq text cls name issued
    exact ⟨issued, rfl⟩

theorem InternedAt.issuedBefore {later : Nat} (h : InternedAt requests point text cls name)
    (hlt : point < later) : IssuedBefore requests later text cls name :=
  .inr ⟨point, hlt, h⟩

end NameTable

end DesignTree

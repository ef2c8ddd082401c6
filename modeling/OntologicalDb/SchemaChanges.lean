import OntologicalDb.Labeling

/-!
The operations that change the type hierarchy of a graph: declaring types in
either language and from RDF, linking and unlinking parents, and dropping.
-/

namespace OntologicalDb.SchemaChanges

open OntologicalDb.ExceptRules
open OntologicalDb.Labeling
open OntologicalDb.TypeCatalog

/-- The catalog with the sequence of type ids and the column `iri` of the types. -/
structure Ontology where
  catalog : Catalog
  nextTypeId : Int
  iris : List (Int × String)

/-- The hierarchy is what the labels are computed from, and the labels. -/
def SameHierarchy (c c' : Catalog) : Prop :=
  c'.types.map (fun t => (t.typeId, t.graphId, t.name, t.kind)) =
      c.types.map (fun t => (t.typeId, t.graphId, t.name, t.kind)) ∧
    c'.typeParent = c.typeParent ∧ c'.labels = c.labels

/-- What an operation does besides: to properties, roles, storage and constraints. -/
structure Rest where
  run : Catalog → Except String Catalog
  keeps : ∀ c c', run c = .ok c' → SameHierarchy c c'

def Rest.none : Rest := ⟨.ok, fun c c' h => by cases h; exact ⟨rfl, rfl, rfl⟩⟩

section Rows

/-- The largest value of `type_id_seq`. -/
def maxTypeId : Int := 262143

def typeId (c : Catalog) (gid : Int) (name : String) : Except String Int :=
  match tryTypeId c gid name with
  | some tid => .ok tid
  | .none => .error s!"type '{name}' does not exist"

def insertType (o : Ontology) (gid : Int) (name : String) (kind : Kind)
    (table : Int → Option StorageTable) : Except String (Ontology × Int) :=
  if o.nextTypeId > maxTypeId then .error "nextval: reached maximum value of sequence"
  else if (tryTypeId o.catalog gid name).isSome then
    .error "duplicate key value violates unique constraint"
  else
    let tid := o.nextTypeId
    .ok ({ o with
      catalog := { o.catalog with types := o.catalog.types ++ [⟨tid, gid, name, kind, table tid⟩] }
      nextTypeId := tid + 1 }, tid)

def insertParent (tid : Int) (c : Catalog) (pid : Int) : Except String Catalog :=
  if (tid, pid) ∈ c.typeParent then .error "parent insert failed: duplicate key value"
  else .ok { c with typeParent := c.typeParent ++ [(tid, pid)] }

/-- Delete a type with the rows that reference it; a role it plays elsewhere has
no cascade. -/
def deleteType (c : Catalog) (tid : Int) : Except String Catalog :=
  if c.roles.any fun r => r.playerTypeId = some tid ∧ r.relTypeId ≠ tid then
    .error "type delete failed: violates foreign key constraint"
  else .ok { c with
    types := c.types.filter fun t => t.typeId ≠ tid
    typeParent := c.typeParent.filter fun l => l.1 ≠ tid ∧ l.2 ≠ tid
    labels := c.labels.filter fun l => l.typeId ≠ tid
    properties := c.properties.filter fun p => p.typeId ≠ tid
    roles := c.roles.filter fun r => r.relTypeId ≠ tid
    virtualRels := c.virtualRels.filter fun v => v.typeId ≠ tid ∧ v.srcType ≠ tid ∧ v.dstType ≠ tid
    virtualSources := c.virtualSources.filter fun v => v.1 ≠ tid
    temporal := c.temporal.filter fun t => t ≠ tid }

end Rows

section Operations

def instanceTable (kind : Kind) (isAbstract : Bool) (tid : Int) : Option StorageTable :=
  match kind with
  | .entity => if isAbstract then .none else some (nodeTable tid)
  | .relation => if isAbstract then .none else some (edgeTable tid)
  | .attribute => .none

def parentId (c : Catalog) (gid : Int) (kind : Kind) (parent : String) : Except String Int := do
  let pid ← typeId c gid parent
  let pk ← typeKind c pid
  require (pk = kind) s!"cannot inherit from '{parent}'"
  return pid

/-- `create_type_inner`, in a graph. -/
def createType (o : Ontology) (gid : Int) (name : String) (kind : Kind) (parents : List String)
    (isAbstract : Bool) (rest : Rest) : Except String Ontology := do
  require ((tryTypeId o.catalog gid name).isNone) s!"type '{name}' already exists"
  let parentIds ← parents.mapM (parentId o.catalog gid kind)
  let (o, tid) ← insertType o gid name kind (instanceTable kind isAbstract)
  let catalog ← parentIds.foldlM (insertParent tid) o.catalog
  let catalog ← rest.run catalog
  let catalog ← relabelGraph catalog gid
  return { o with catalog := catalog }

/-- Name of the internal relation type carrying attribute ownership. -/
def hasType : String := "$has"

def ensureHasType (o : Ontology) (gid : Int) : Except String Ontology :=
  match tryTypeId o.catalog gid hasType with
  | some _ => .ok o
  | .none => do
      let (o, _) ← insertType o gid hasType .relation fun tid => some (edgeTable tid)
      return { o with catalog := ← relabelGraph o.catalog gid }

/-- The part of a TypeQL type definition the hierarchy is made of. -/
structure TypeDef where
  kind : Kind
  name : String
  sub : Option String

/-- Pass 1: a type without storage and without labels. -/
def declareShell (gid : Int) (o : Ontology) (d : TypeDef) : Except String Ontology :=
  match tryTypeId o.catalog gid d.name with
  | some tid => do
      let existing ← typeKind o.catalog tid
      require (existing = d.kind) s!"'{d.name}' is already defined"
      return o
  | .none => do
      let (o, _) ← insertType o gid d.name d.kind fun _ => .none
      return o

/-- Pass 2, for one definition: the catalog, and whether a link was new. -/
def linkSub (gid : Int) (acc : Catalog × Bool) (d : TypeDef) : Except String (Catalog × Bool) :=
  match d.sub with
  | .none => .ok acc
  | some parent => do
      let tid ← typeId acc.1 gid d.name
      let pid ← typeId acc.1 gid parent
      let pk ← typeKind acc.1 pid
      require (pk = d.kind) s!"'{d.name}' cannot sub '{parent}'"
      if (tid, pid) ∈ acc.1.typeParent then return acc
      else return ({ acc.1 with typeParent := acc.1.typeParent ++ [(tid, pid)] }, true)

/-- `run_define`; passes 3 to 5 are the rest. -/
def runDefine (o : Ontology) (gid : Int) (defs : List TypeDef) (rest : Rest) :
    Except String Ontology := do
  let o ← ensureHasType o gid
  let o ← defs.foldlM (declareShell gid) o
  let (catalog, linked) ← defs.foldlM (linkSub gid) (o.catalog, false)
  let relabelled := if linked then relabelGraph catalog gid else .ok catalog
  let catalog ← relabelled
  return { o with catalog := ← rest.run catalog }

/-- The schema change `add_parent`, planned and expanded. -/
def addParent (o : Ontology) (gid : Int) (name parent : String) (rest : Rest) :
    Except String Ontology := do
  let tid ← typeId o.catalog gid name
  let pid ← typeId o.catalog gid parent
  require (typeKind o.catalog tid = typeKind o.catalog pid) "different kinds of type"
  require ((tid, pid) ∉ o.catalog.typeParent) s!"'{name}' already inherits from '{parent}'"
  require (ogIsSubtype o.catalog pid tid = false) "that would be a cycle"
  let catalog ← insertParent tid o.catalog pid
  let catalog ← relabelGraph catalog gid
  return { o with catalog := ← rest.run catalog }

def removeParent (o : Ontology) (gid : Int) (name parent : String) : Except String Ontology := do
  let tid ← typeId o.catalog gid name
  let pid ← typeId o.catalog gid parent
  require ((tid, pid) ∈ o.catalog.typeParent) s!"'{name}' does not inherit from '{parent}'"
  let links := o.catalog.typeParent.filter fun l => l ≠ (tid, pid)
  return { o with catalog := ← relabelGraph { o.catalog with typeParent := links } gid }

/-- `og_drop_type`; `instances` counts the rows of the registries. -/
def dropType (o : Ontology) (gid : Int) (name : String) (cascade : Bool)
    (instances : List Int → Nat) : Except String Ontology := do
  let tid ← typeId o.catalog gid name
  let subs := ogSubtypes o.catalog tid
  require (instances subs = 0 ∨ cascade = true) s!"type '{name}' has instances"
  let catalog ← subs.foldlM deleteType o.catalog
  return { o with catalog := ← relabelGraph catalog gid }

end Operations

section Rdf

/-- A triple, as far as its terms are IRIs. -/
structure Triple where
  s : Option String
  p : Option String
  o : Option String

def rdfType : String := "http://www.w3.org/1999/02/22-rdf-syntax-ns#type"
def rdfsClass : String := "http://www.w3.org/2000/01/rdf-schema#Class"
def rdfsSubclass : String := "http://www.w3.org/2000/01/rdf-schema#subClassOf"
def rdfsDomain : String := "http://www.w3.org/2000/01/rdf-schema#domain"
def rdfsRange : String := "http://www.w3.org/2000/01/rdf-schema#range"
def owlClass : String := "http://www.w3.org/2002/07/owl#Class"
def owlObjectProp : String := "http://www.w3.org/2002/07/owl#ObjectProperty"
def owlDataProp : String := "http://www.w3.org/2002/07/owl#DatatypeProperty"
def owlTransitive : String := "http://www.w3.org/2002/07/owl#TransitiveProperty"
def owlSymmetric : String := "http://www.w3.org/2002/07/owl#SymmetricProperty"
def owlFunctional : String := "http://www.w3.org/2002/07/owl#FunctionalProperty"

def localName (iri : String) : String :=
  String.ofList (iri.toList.reverse.takeWhile fun ch => ch ≠ '#' ∧ ch ≠ '/').reverse

def iriType (o : Ontology) (gid : Int) (iri : String) : Option Int :=
  (o.catalog.types.find? fun t => t.graphId = gid ∧ (t.typeId, iri) ∈ o.iris).map (·.typeId)

/-- A class or property of a document becomes a type of its own. -/
def ensureType (gid : Int) (rest : Rest) (o : Ontology) (iri : String) (kind : Kind) :
    Except String Ontology :=
  if (iriType o gid iri).isSome then .ok o
  else do
    let short := if localName iri = "" then iri else localName iri
    let name :=
      if (tryTypeId o.catalog gid short).isSome then s!"{short}_{iri.length}" else short
    let o ← createType o gid name kind [] false rest
    let tid ← typeId o.catalog gid name
    return { o with iris := (tid, iri) :: o.iris.filter fun r => r.1 ≠ tid }

/-- Pass 1: classes and properties. -/
def declareTerm (gid : Int) (rest : Rest) (o : Ontology) (t : Triple) : Except String Ontology :=
  match t.s, t.p, t.o with
  | some s, some p, some obj =>
      if p = rdfType then
        if obj = owlClass ∨ obj = rdfsClass then ensureType gid rest o s .entity
        else if obj = owlObjectProp ∨ obj = owlTransitive ∨ obj = owlSymmetric then
          ensureType gid rest o s .relation
        else .ok o
      else .ok o
  | _, _, _ => .ok o

/-- Pass 2: the hierarchy; a link that is there already is left alone. -/
def linkClasses (gid : Int) (rest : Rest) (o : Ontology) (t : Triple) : Except String Ontology :=
  match t.s, t.p, t.o with
  | some s, some p, some obj =>
      if p = rdfsSubclass then do
        let o ← ensureType gid rest o s .entity
        let o ← ensureType gid rest o obj .entity
        match iriType o gid s, iriType o gid obj with
        | some c, some par =>
            if (c, par) ∈ o.catalog.typeParent then return o
            else
              let links := o.catalog.typeParent ++ [(c, par)]
              return { o with catalog := { o.catalog with typeParent := links } }
        | _, _ => return o
      else .ok o
  | _, _, _ => .ok o

/-- Pass 3: what a relation's domain or range names is a type. -/
def declarePlayer (gid : Int) (rest : Rest) (o : Ontology) (t : Triple) : Except String Ontology :=
  match t.s, t.p, t.o with
  | some s, some p, some obj =>
      if (p = rdfsDomain ∨ p = rdfsRange) ∧
          ((iriType o gid s).bind fun rel => (typeKind o.catalog rel).toOption) = some .relation then
        ensureType gid rest o obj .entity
      else .ok o
  | _, _, _ => .ok o

def builtin : List String :=
  [owlClass, rdfsClass, owlObjectProp, owlDataProp, owlTransitive, owlSymmetric, owlFunctional]

/-- Pass 4: what an instance belongs to is a type. -/
def declareInstance (gid : Int) (rest : Rest) (o : Ontology) (t : Triple) :
    Except String Ontology :=
  match t.s, t.p, t.o with
  | some _, some p, some obj =>
      if p = rdfType ∧ obj ∉ builtin then ensureType gid rest o obj .entity else .ok o
  | _, _, _ => .ok o

/-- The IRIs that pass 4 made nodes of. -/
def instancesOf (triples : List Triple) : List String :=
  triples.filterMap fun t =>
    match t.s, t.p, t.o with
    | some s, some p, some obj => if p = rdfType ∧ obj ∉ builtin then some s else .none
    | _, _, _ => .none

/-- Pass 5: a fact between two nodes makes its predicate a type. -/
def declareFact (gid : Int) (rest : Rest) (nodes : List String) (o : Ontology) (t : Triple) :
    Except String Ontology :=
  match t.s, t.p, t.o with
  | some s, some p, some obj =>
      if p ∉ [rdfType, rdfsSubclass, rdfsDomain, rdfsRange] ∧ s ∈ nodes ∧ obj ∈ nodes then
        ensureType gid rest o p .relation
      else .ok o
  | _, _, _ => .ok o

def loadRdf (o : Ontology) (gid : Int) (triples : List Triple) (rest : Rest) :
    Except String Ontology := do
  let o ← triples.foldlM (declareTerm gid rest) o
  let o ← triples.foldlM (linkClasses gid rest) o
  let o : Ontology := { o with catalog := ← relabelGraph o.catalog gid }
  let o ← triples.foldlM (declarePlayer gid rest) o
  let o ← triples.foldlM (declareInstance gid rest) o
  triples.foldlM (declareFact gid rest (instancesOf triples)) o

end Rdf

/-- The public operations on the hierarchy of a graph; an aborted one leaves the
catalog and may have drawn from the sequence. -/
inductive SchemaOp
  | createType (name : String) (kind : Kind) (parents : List String) (isAbstract : Bool)
      (rest : Rest)
  | define (defs : List TypeDef) (rest : Rest)
  | ensureHasType
  | addParent (name parent : String) (rest : Rest)
  | removeParent (name parent : String)
  | dropType (name : String) (cascade : Bool) (instances : List Int → Nat)
  | setIri (name iri : String)
  | loadRdf (triples : List Triple) (rest : Rest)
  | aborted (ids : Nat)

/-- An operation on the graph of a given name. -/
def SchemaOp.run (o : Ontology) (e : String × SchemaOp) : Except String Ontology := do
  let gid ← graphId o.catalog e.1
  match e.2 with
  | .createType name kind parents isAbstract rest =>
      SchemaChanges.createType o gid name kind parents isAbstract rest
  | .define defs rest => runDefine o gid defs rest
  | .ensureHasType => SchemaChanges.ensureHasType o gid
  | .addParent name parent rest => SchemaChanges.addParent o gid name parent rest
  | .removeParent name parent => SchemaChanges.removeParent o gid name parent
  | .dropType name cascade instances => SchemaChanges.dropType o gid name cascade instances
  | .setIri name iri => do
      let tid ← typeId o.catalog gid name
      return { o with iris := (tid, iri) :: o.iris.filter fun r => r.1 ≠ tid }
  | .loadRdf triples rest => SchemaChanges.loadRdf o gid triples rest
  | .aborted ids => return { o with nextTypeId := o.nextTypeId + ids }

end OntologicalDb.SchemaChanges

import VhdlWorkbench.Source.Style
import VhdlWorkbench.Session.Step
import VhdlWorkbench.Proofs.PrintedEntity
import VhdlWorkbench.Proofs.RuleOverrides
import VhdlWorkbench.Proofs.VariableOrder
import VhdlWorkbench.Proofs.HierarchyWalk
import VhdlWorkbench.Proofs.TreeParents
import VhdlWorkbench.Proofs.FunctionBodies
import VhdlWorkbench.Proofs.FunctionNames
import VhdlWorkbench.Proofs.ListedLookup
import VhdlWorkbench.Proofs.RecordFields
import VhdlWorkbench.Proofs.ListedInstances
import VhdlWorkbench.Proofs.TreeDepth
import VhdlWorkbench.Proofs.ColourDigits
import VhdlWorkbench.Proofs.ColourRange
import VhdlWorkbench.Proofs.BindingAligned
import VhdlWorkbench.Proofs.BlockTails
import VhdlWorkbench.Proofs.BindingComments
import VhdlWorkbench.Proofs.ObjectRows
import VhdlWorkbench.Proofs.ClauseComments
import VhdlWorkbench.Proofs.CommentRemoval
import VhdlWorkbench.Proofs.ComponentLookup
import VhdlWorkbench.Proofs.ConnectionTotality
import VhdlWorkbench.Proofs.RowColumns
import VhdlWorkbench.Proofs.UnitHeaders
import VhdlWorkbench.Proofs.SymbolPlaces
import VhdlWorkbench.Proofs.KeptLines
import VhdlWorkbench.Proofs.ColumnPlaces
import VhdlWorkbench.Proofs.BlendRounds
import VhdlWorkbench.Proofs.InstanceLines

import SlotPacking.Main
import SlotPacking.Proofs.BiasBroadcast
import SlotPacking.Proofs.BundleGrowth
import SlotPacking.Proofs.BundleMerge
import SlotPacking.Proofs.BundleRuns
import SlotPacking.Proofs.BundleText
import SlotPacking.Proofs.CanonicalScales
import SlotPacking.Proofs.CellNames
import SlotPacking.Proofs.CircuitOutcome
import SlotPacking.Proofs.CircuitSum
import SlotPacking.Proofs.ConvLayer
import SlotPacking.Proofs.ConvOutputs
import SlotPacking.Proofs.CyclicSum
import SlotPacking.Proofs.DenseLayer
import SlotPacking.Proofs.DenseOutputs
import SlotPacking.Proofs.EncodedCircuit
import SlotPacking.Proofs.EncodedOperator
import SlotPacking.Proofs.FloatArithmetic
import SlotPacking.Proofs.FloatBits
import SlotPacking.Proofs.FractionOrder
import SlotPacking.Proofs.ImagePacking
import SlotPacking.Proofs.LayerDiagonals
import SlotPacking.Proofs.LayerOperands
import SlotPacking.Proofs.Levels
import SlotPacking.Proofs.LinearOutcome
import SlotPacking.Proofs.MatrixEntries
import SlotPacking.Proofs.ModelTensors
import SlotPacking.Proofs.NearestFloat
import SlotPacking.Proofs.NetworkDepth
import SlotPacking.Proofs.NumberGrid
import SlotPacking.Proofs.NumberTokens
import SlotPacking.Proofs.NumeralReading
import SlotPacking.Proofs.ObjectReading
import SlotPacking.Proofs.OperandNames
import SlotPacking.Proofs.OperatorEntries
import SlotPacking.Proofs.Outcome
import SlotPacking.Proofs.ParameterMaps
import SlotPacking.Proofs.PlacementOrder
import SlotPacking.Proofs.PowersOfTen
import SlotPacking.Proofs.ProgramContents
import SlotPacking.Proofs.ProgramDependence
import SlotPacking.Proofs.ProgramOperands
import SlotPacking.Proofs.ProgramOutcome
import SlotPacking.Proofs.ProgramScales
import SlotPacking.Proofs.RatioConversion
import SlotPacking.Proofs.Rotations
import SlotPacking.Proofs.RoundingError
import SlotPacking.Proofs.ScaleValues
import SlotPacking.Proofs.ShortestDigits
import SlotPacking.Proofs.SlotVectors
import SlotPacking.Proofs.SplitCircuit
import SlotPacking.Proofs.Splits
import SlotPacking.Proofs.SquareProduct
import SlotPacking.Proofs.StoredParameters
import SlotPacking.Proofs.TapPlacement
import SlotPacking.Proofs.TensorOutcome
import SlotPacking.Proofs.TensorText
import SlotPacking.Proofs.TokenText
import SlotPacking.Proofs.TrackedExpressions
import SlotPacking.Proofs.UnrolledImage
import SlotPacking.Proofs.UsableScales
